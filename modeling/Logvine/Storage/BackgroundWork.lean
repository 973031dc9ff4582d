import Logvine.Storage.SavedTables
import Logvine.Storage.ThreadReads
import Logvine.Storage.WithoutCompaction

/-!
# All of the engine's threads

Writers, rotations, flushes and compactions, one after the other, each of them in its own
steps and in any order. At every point the tables are compared with what they would be
without the compaction under way (`Shadow`); a compaction that has ended starts the
comparison anew.

- `Clocked`: no path is used twice, and the clock moves on;
- `stepped_act`: every step keeps the comparison, and without the compaction under way it
  is a step of the layered store;
- `shadow_opened`: where the comparison begins;
- `Shadow.settled`: outside of the removal of merged entries readers see no difference.

Flushes exclude each other (`engine.py`, 291), and so do compactions as long as the flag is
right (`compaction.py`, 39–46), but a flush and a compaction do not. Both change the
manifest under its lock, one entry at a time.
-/

namespace Logvine

open CompactionManager Layer LSMStorageEngine Runs SSTableManager

namespace Workers

variable {L : Type} [Log L]

/-! ## Readings of the clock -/

/-- The path a step writes a table to, and whether the table is complete then. -/
def names (c : Workers L) : Work L → List (Bool × Path)
  | .thread (.flush nowMs) =>
    match c.config.flush with
    | .writing _ _ => [(true, sstablePath c.config.engine.storagePath nowMs)]
    | _ => []
  | .thread (.raise nowMs _) | .flushPart nowMs _ =>
    match c.config.flush with
    | .writing _ _ => [(false, sstablePath c.config.engine.storagePath nowMs)]
    | _ => []
  | .compact timeNs _ =>
    match c.compaction with
    | .merging _ => [(true, compactedPath c.config.engine.storagePath timeNs)]
    | _ => []
  | .compactPart timeNs _ | .compactRaise timeNs _ =>
    match c.compaction with
    | .merging _ => [(false, compactedPath c.config.engine.storagePath timeNs)]
    | _ => []
  | _ => []

/-- The reading a step records for its table. -/
def created (c : Workers L) : Work L → List Nat
  | .thread (.flush nowMs) =>
    match c.config.flush with
    | .written _ _ => [nowMs]
    | _ => []
  | .compact _ nowMs =>
    match c.compaction with
    | .written _ _ => [nowMs]
    | _ => []
  | _ => []

/-- A path that is used later is none that a complete table was written to. -/
def Later (name later : Bool × Path) : Prop := name.1 = true → name.2 ≠ later.2

instance (name later : Bool × Path) : Decidable (Later name later) :=
  inferInstanceAs (Decidable (name.1 = true → name.2 ≠ later.2))

/-- No path is used again that a complete table was written to, and the clock moves on;
both hold for what is listed at the start too. -/
structure Clocked (c : Workers L) (works : List (Work L)) : Prop where
  distinct : (collect act names c works).Pairwise Later
  unused : ∀ name ∈ collect act names c works, ¬c.tables.Listed name.2
  increasing : (collect act created c works).Pairwise (· < ·)
  later : ∀ nowMs ∈ collect act created c works, Newer c.tables nowMs

/-! ## Steps of the threads -/

section Threads

variable {c : Workers L} {without : Tables} {storagePath : Path}

/-- The table a flush is about to list has a name of a flush. -/
def FlushNamed (c : Workers L) : Prop :=
  ∀ path ∈ c.config.flush.underWay, ∃ nameMs, path = sstablePath c.config.engine.storagePath nameMs

/-- What an action does, it does to the engine without the compaction under way as well;
and where the table of the flush comes from. -/
structure Mirrored (c c' : Workers L) (without without' : Tables) (a : Action) : Prop where
  alike : Alike c.config.engine.storagePath without c.tables without' c'.tables
  act : (c.withTables without).config.act a = (c'.withTables without').config
  compaction : c'.compaction = c.compaction
  named : FlushNamed c'
  listed : ∀ m ∈ readOrder without'.manifest,
    m ∈ readOrder without.manifest ∨ ∃ walOffset, c.config.flush = .described m walOffset
  underWay : ∀ path ∈ c'.config.flush.underWay,
    path ∈ c.config.flush.underWay ∨ (true, path) ∈ names c (.thread a)
  described : ∀ m walOffset, c'.config.flush = .described m walOffset →
    c.config.flush = .described m walOffset ∨ ∃ nowMs ∈ created c (.thread a), m.createdAtMs = some nowMs

/-- What leaves the tables and the flush alone. -/
theorem mirrored_same {c' : Workers L} {a : Action} (htables : c'.tables = c.tables)
    (hpath : c'.config.engine.storagePath = c.config.engine.storagePath) (hflush : c'.config.flush = c.config.flush)
    (hcompaction : c'.compaction = c.compaction) (hnamed : FlushNamed c)
    (hact : (c.withTables without).config.act a = (c'.withTables without).config) : Mirrored c c' without without a := by
  refine ⟨by rw [htables]; exact .same, hact, hcompaction, ?_, fun m hm => .inl hm, ?_, ?_⟩
  · rw [FlushNamed, hflush, hpath]
    exact hnamed
  · rw [hflush]
    exact fun path hmem => .inl hmem
  · rw [hflush]
    exact fun m walOffset heq => .inl heq

theorem begin_withTables (e : LSMStorageEngine L) (t : Tables) (a : Action) :
    Config.begin { e with tables := t } a = ({ (Config.begin e a).1 with tables := t }, (Config.begin e a).2) := by
  cases a with
  | put writer key value =>
    simp only [Config.begin]
    rcases Log.append e.wal OperationType.put key value with ⟨wal, err | offset⟩ <;> rfl
  | delete writer key =>
    simp only [Config.begin]
    rcases Log.append e.wal OperationType.delete key [] with ⟨wal, err | offset⟩ <;> rfl
  | batchPut writer keys values =>
    simp only [Config.begin]
    split <;> rfl
  | write writer | rotate | flush nowMs | raise nowMs content => rfl

theorem writeNext_withTables (e : LSMStorageEngine L) (t : Tables) (pc : WriterPc) :
    Config.writeNext { e with tables := t } pc =
      ({ (Config.writeNext e pc).1 with tables := t }, (Config.writeNext e pc).2) := by
  cases pc with
  | batchSizing keys values rest inputSize =>
    cases rest with
    | cons item rest => rfl
    | nil =>
      simp only [Config.writeNext]
      split
      · rfl
      · rcases Log.appendBatch e.wal OperationType.put keys values with ⟨wal, err | lastOffset⟩ <;> rfl
  | idle | putLogged | deleteLogged | deleteApplied | batchLogged => rfl

/-- Whether a table can be written, and what is then in its file, does not depend on the
other files. -/
theorem write_eq (sstable : SSTable) (pairs : List (Bytes × Bytes)) :
    ∃ content result, ∀ t : Tables, t.write sstable pairs = (t.setFile sstable.path content, result) := by
  unfold Tables.write SSTable.write
  split
  · exact ⟨_, _, fun _ => rfl⟩
  · exact ⟨_, _, fun _ => rfl⟩

/-- A step of a flush that is under way. -/
theorem mirrored_of_next {e e' : LSMStorageEngine L} {writers : Nat → WriterPc} {pc pc' : FlushPc}
    {compaction : CompactPc} {without' : Tables} {nowMs : Nat}
    (hpc : pc ≠ .returned ∧ ∀ err, pc ≠ .raised err) (hnext : flushNext nowMs e pc = (e', pc'))
    (hwithout : flushNext nowMs { e with tables := without } pc = ({ e' with tables := without' }, pc'))
    (halike : Alike e.storagePath without e.tables without' e'.tables)
    (hnamed : ∀ path ∈ pc'.underWay, ∃ nameMs, path = sstablePath e'.storagePath nameMs)
    (hlisted : ∀ m ∈ readOrder without'.manifest,
      m ∈ readOrder without.manifest ∨ ∃ walOffset, pc = .described m walOffset)
    (hunderWay : ∀ path ∈ pc'.underWay, path ∈ pc.underWay ∨
      (true, path) ∈ names ⟨⟨e, writers, pc⟩, compaction⟩ (.thread (.flush nowMs)))
    (hdescribed : ∀ m walOffset, pc' = .described m walOffset → pc = .described m walOffset ∨
      ∃ nowMs' ∈ created ⟨⟨e, writers, pc⟩, compaction⟩ (.thread (.flush nowMs)), m.createdAtMs = some nowMs') :
    Mirrored ⟨⟨e, writers, pc⟩, compaction⟩ (act ⟨⟨e, writers, pc⟩, compaction⟩ (.thread (.flush nowMs))) without
      without' (.flush nowMs) := by
  have hact : ∀ {e e' : LSMStorageEngine L}, flushNext nowMs e pc = (e', pc') →
      Config.act ⟨e, writers, pc⟩ (.flush nowMs) = ⟨e', writers, pc'⟩ := by
    intro e e' hnext
    rw [Config.act]
    split
    · next heq => exact absurd heq hpc.1
    · next err heq => exact absurd heq (hpc.2 err)
    · rw [hnext]
  have hstep : act ⟨⟨e, writers, pc⟩, compaction⟩ (.thread (.flush nowMs)) = ⟨⟨e', writers, pc'⟩, compaction⟩ := by
    rw [act, hact hnext]
  rw [hstep]
  exact ⟨halike, hact hwithout, rfl, hnamed, hlisted, hunderWay, hdescribed⟩

/-- One that leaves the flush without a table of its own. -/
theorem mirrored_of_none {e e' : LSMStorageEngine L} {writers : Nat → WriterPc} {pc pc' : FlushPc}
    {compaction : CompactPc} {without' : Tables} {nowMs : Nat}
    (hpc : pc ≠ .returned ∧ ∀ err, pc ≠ .raised err) (hnext : flushNext nowMs e pc = (e', pc'))
    (hwithout : flushNext nowMs { e with tables := without } pc = ({ e' with tables := without' }, pc'))
    (halike : Alike e.storagePath without e.tables without' e'.tables) (hnone : Config.HoldsNoTable pc')
    (hlisted : ∀ m ∈ readOrder without'.manifest,
      m ∈ readOrder without.manifest ∨ ∃ walOffset, pc = .described m walOffset) :
    Mirrored ⟨⟨e, writers, pc⟩, compaction⟩ (act ⟨⟨e, writers, pc⟩, compaction⟩ (.thread (.flush nowMs))) without
      without' (.flush nowMs) := by
  have hempty : pc'.underWay = [] := by
    cases pc' with
    | written sstable walOffset => exact hnone.elim
    | described metadata walOffset => exact hnone.elim
    | idle | collected | writing | added | saved | recorded | cleared | returned | raised => rfl
  refine mirrored_of_next hpc hnext hwithout halike ?_ hlisted ?_ ?_
  · rw [hempty]
    exact fun _ hmem => absurd hmem List.not_mem_nil
  · rw [hempty]
    exact fun _ hmem => absurd hmem List.not_mem_nil
  · rintro m walOffset rfl
    exact hnone.elim

theorem created_buildMetadata {t : Tables} {sstable : SSTable} {level nowMs : Nat} {metadata : SSTableMeta}
    (h : t.buildMetadata sstable level nowMs = .ok metadata) : metadata.createdAtMs = some nowMs := by
  rw [Tables.buildMetadata, buildMetadata] at h
  split at h
  · cases h
  · cases h
    rfl

theorem mirrored_flush (hinv : (c.withTables without).config.Inv) (hnamed : FlushNamed c)
    (hfiles : ∀ path ∈ c.config.flush.underWay, c.tables.files path = without.files path) {nowMs : Nat}
    (hok : (c.withTables without).config.FlushOk (.flush nowMs)) :
    ∃ without', Mirrored c (c.act (.thread (.flush nowMs))) without without' (.flush nowMs) := by
  have hflush : FlushInv c.config.engine.memtable without c.config.flush := hinv.flush
  have hclock : FlushClock c.config.engine.storagePath without nowMs c.config.flush := hok
  obtain ⟨⟨e, writers, flush⟩, compaction⟩ := c
  cases flush with
  | idle =>
    have hpc : FlushPc.idle ≠ .returned ∧ ∀ err, FlushPc.idle ≠ .raised err := ⟨by rintro ⟨⟩, by rintro _ ⟨⟩⟩
    cases hitems : e.memtable.getFrozenItems.sortedItems with
    | nil =>
      have hnext : ∀ t : Tables, flushNext nowMs { e with tables := t } .idle = ({ e with tables := t }, .returned) :=
        fun t => by rw [flushNext, hitems]
      exact ⟨_, mirrored_of_none hpc (hnext e.tables) (hnext without) .same trivial fun _ hm => .inl hm⟩
    | cons item items =>
      have hnext : ∀ t : Tables, flushNext nowMs { e with tables := t } .idle =
          ({ e with tables := t }, .collected (item :: items)) := fun t => by rw [flushNext, hitems]
      exact ⟨_, mirrored_of_none hpc (hnext e.tables) (hnext without) .same trivial fun _ hm => .inl hm⟩
  | collected items =>
    exact ⟨_, mirrored_of_none ⟨by rintro ⟨⟩, by rintro _ ⟨⟩⟩ rfl rfl .same trivial fun _ hm => .inl hm⟩
  | writing items walOffset =>
    have hpc : FlushPc.writing items walOffset ≠ .returned ∧ ∀ err, FlushPc.writing items walOffset ≠ .raised err :=
      ⟨by rintro ⟨⟩, by rintro _ ⟨⟩⟩
    obtain ⟨content, result, hwrite⟩ := write_eq (.init (sstablePath e.storagePath nowMs) 0) items
    have hfile := Alike.file (t := e.tables) nowMs content hclock
    cases result with
    | error err =>
      have hnext : ∀ t : Tables, flushNext nowMs { e with tables := t } (.writing items walOffset) =
          ({ e with tables := t.setFile (sstablePath e.storagePath nowMs) content }, .raised err) := fun t => by
        simp only [flushNext, hwrite]
        rfl
      exact ⟨_, mirrored_of_none hpc (hnext e.tables) (hnext without) hfile trivial fun _ hm => .inl hm⟩
    | ok sstable =>
      have hnext : ∀ t : Tables, flushNext nowMs { e with tables := t } (.writing items walOffset) =
          ({ e with tables := t.setFile (sstablePath e.storagePath nowMs) content },
            .written sstable walOffset) := fun t => by
        simp only [flushNext, hwrite]
        rfl
      have hpath : sstable.path = sstablePath e.storagePath nowMs := by
        obtain ⟨frozen, rest, -, rfl⟩ := hflush.2
        exact (Tables.write_ok frozen.sortedItems_ascending (hwrite e.tables)).2.1
      refine ⟨_, mirrored_of_next hpc (hnext e.tables) (hnext without) hfile ?_ (fun _ hm => .inl hm) ?_
        (by rintro _ _ ⟨⟩)⟩
      · intro path hmem
        exact ⟨nowMs, (List.mem_singleton.mp hmem).trans hpath⟩
      · intro path hmem
        rw [List.mem_singleton.mp hmem, hpath]
        exact .inr (List.mem_singleton_self _)
  | written sstable walOffset =>
    have hpc : FlushPc.written sstable walOffset ≠ .returned ∧ ∀ err, FlushPc.written sstable walOffset ≠ .raised err :=
      ⟨by rintro ⟨⟩, by rintro _ ⟨⟩⟩
    have hbuild : e.tables.buildMetadata sstable 0 nowMs = without.buildMetadata sstable 0 nowMs :=
      buildMetadata_congr (hfiles sstable.path (List.mem_singleton_self _)) 0 nowMs
    cases hresult : without.buildMetadata sstable 0 nowMs with
    | error err =>
      have hnext : ∀ t : Tables, t.buildMetadata sstable 0 nowMs = .error err →
          flushNext nowMs { e with tables := t } (.written sstable walOffset) = ({ e with tables := t }, .raised err) :=
        fun t ht => by simp only [flushNext, ht]
      exact ⟨_, mirrored_of_none hpc (hnext e.tables (hbuild.trans hresult)) (hnext without hresult) .same trivial
        fun _ hm => .inl hm⟩
    | ok metadata =>
      have hnext : ∀ t : Tables, t.buildMetadata sstable 0 nowMs = .ok metadata →
          flushNext nowMs { e with tables := t } (.written sstable walOffset) =
            ({ e with tables := t }, .described metadata walOffset) := fun t ht => by simp only [flushNext, ht]
      have hpath : metadata.path = sstable.path := path_buildMetadata hresult
      refine ⟨_, mirrored_of_next hpc (hnext e.tables (hbuild.trans hresult)) (hnext without hresult) .same ?_
        (fun _ hm => .inl hm) ?_ ?_⟩
      · intro path hmem
        rw [List.mem_singleton.mp hmem, hpath]
        exact hnamed sstable.path (List.mem_singleton_self _)
      · intro path hmem
        rw [List.mem_singleton.mp hmem, hpath]
        exact .inl (List.mem_singleton_self _)
      · rintro _ _ ⟨rfl, -⟩
        exact .inr ⟨nowMs, List.mem_singleton_self _, created_buildMetadata hresult⟩
  | described metadata walOffset =>
    obtain ⟨nameMs, hname⟩ := hnamed metadata.path (List.mem_singleton_self _)
    obtain ⟨items, -, -, -, hfree, hnew⟩ := hflush
    refine ⟨_, mirrored_of_none ⟨by rintro ⟨⟩, by rintro _ ⟨⟩⟩ rfl rfl (.listed metadata nameMs hname hfree hnew) trivial
      fun m hm => ?_⟩
    rcases mem_readOrder_addEntry.mp hm with rfl | hm
    · exact .inr ⟨walOffset, rfl⟩
    · exact .inl hm
  | added walOffset =>
    exact ⟨_, mirrored_of_none ⟨by rintro ⟨⟩, by rintro _ ⟨⟩⟩ rfl rfl .saved trivial fun _ hm => .inl hm⟩
  | saved walOffset =>
    exact ⟨_, mirrored_of_none ⟨by rintro ⟨⟩, by rintro _ ⟨⟩⟩ rfl rfl .saved trivial fun _ hm => .inl hm⟩
  | recorded walOffset =>
    exact ⟨_, mirrored_of_none ⟨by rintro ⟨⟩, by rintro _ ⟨⟩⟩ rfl rfl .same trivial fun _ hm => .inl hm⟩
  | cleared walOffset =>
    exact ⟨_, mirrored_of_none ⟨by rintro ⟨⟩, by rintro _ ⟨⟩⟩ rfl rfl .same trivial fun _ hm => .inl hm⟩
  | returned | raised =>
    exact ⟨_, .same, rfl, rfl, fun _ hmem => absurd hmem List.not_mem_nil, fun _ hm => .inl hm,
      fun _ hmem => absurd hmem List.not_mem_nil, by rintro _ _ ⟨⟩⟩

/-- A writer begins a call. -/
theorem mirrored_begin (writer : Nat) (hnamed : FlushNamed c) {a : Action}
    (hact : ∀ c : Config L, c.act a =
      if c.writers writer = .idle then c.wrote writer (Config.begin c.engine a) else c) :
    Mirrored c (c.act (.thread a)) without without a := by
  have hstep : c.act (.thread a) = ⟨if c.config.writers writer = .idle then
      c.config.wrote writer (Config.begin c.config.engine a) else c.config, c.compaction⟩ := by
    rw [act, hact]
  obtain ⟨wal, hwal⟩ := Config.begin_same c.config.engine a
  rw [hstep]
  by_cases hidle : c.config.writers writer = .idle
  · have hghost : (c.withTables without).config.writers writer = .idle := hidle
    rw [if_pos hidle]
    refine mirrored_same ?_ ?_ rfl rfl hnamed ?_
    · rw [tables, Config.engine_wrote, hwal]
      rfl
    · rw [Config.engine_wrote, hwal]
    · rw [hact, if_pos hghost]
      exact congrArg ((c.withTables without).config.wrote writer) (begin_withTables c.config.engine without a)
  · have hghost : ¬(c.withTables without).config.writers writer = .idle := hidle
    rw [if_neg hidle]
    refine mirrored_same rfl rfl rfl rfl hnamed ?_
    rw [hact, if_neg hghost]

/-- **Every action** does the same on the engine without the compaction under way. -/
theorem mirrored_thread (hinv : (c.withTables without).config.Inv) (hnamed : FlushNamed c)
    (hfiles : ∀ path ∈ c.config.flush.underWay, c.tables.files path = without.files path) {a : Action}
    (hok : (c.withTables without).config.FlushOk a) :
    ∃ without', Mirrored c (c.act (.thread a)) without without' a := by
  cases a with
  | flush nowMs => exact mirrored_flush hinv hnamed hfiles hok
  | put writer key value => exact ⟨without, mirrored_begin writer hnamed fun _ => rfl⟩
  | delete writer key => exact ⟨without, mirrored_begin writer hnamed fun _ => rfl⟩
  | batchPut writer keys values => exact ⟨without, mirrored_begin writer hnamed fun _ => rfl⟩
  | rotate => exact ⟨without, mirrored_same rfl rfl rfl rfl hnamed rfl⟩
  | write writer =>
    obtain ⟨memtable, wal, heq⟩ := Config.writeNext_same c.config.engine (c.config.writers writer)
    have htables : (c.act (.thread (.write writer))).tables = c.tables := congrArg (fun e => e.tables) heq
    have hpath : (c.act (.thread (.write writer))).config.engine.storagePath = c.config.engine.storagePath :=
      congrArg (fun e => e.storagePath) heq
    exact ⟨without, mirrored_same htables hpath rfl rfl hnamed
      (congrArg ((c.withTables without).config.wrote writer)
        (writeNext_withTables c.config.engine without (c.config.writers writer)))⟩
  | raise nowMs content =>
    have hfree : Config.NameFree c.config.engine.storagePath without nowMs c.config.flush := hok
    obtain ⟨⟨e, writers, flush⟩, compaction⟩ := c
    cases flush with
    | writing items walOffset =>
      exact ⟨_, .file nowMs content hfree, rfl, rfl, fun _ hmem => absurd hmem List.not_mem_nil, fun _ hm => .inl hm,
        fun _ hmem => absurd hmem List.not_mem_nil, by rintro _ _ ⟨⟩⟩
    | idle | returned | raised => exact ⟨without, mirrored_same rfl rfl rfl rfl hnamed rfl⟩
    | collected | written | described | added | saved | recorded | cleared =>
      exact ⟨_, .same, rfl, rfl, fun _ hmem => absurd hmem List.not_mem_nil, fun _ hm => .inl hm,
        fun _ hmem => absurd hmem List.not_mem_nil, by rintro _ _ ⟨⟩⟩

end Threads

/-! ## The comparison -/

/-- What is known of the compaction under way: the tables without it, the tables it merges,
and its readings of the clock. -/
structure Ghost where
  without : Tables
  level0 : List SSTableMeta
  timeNs : Nat
  createdMs : Nat

/-- The path the compaction writes to. -/
def newPath (c : Workers L) (g : Ghost) : Path := compactedPath c.config.engine.storagePath g.timeNs

/-- The compaction has written its table, and has not raised. -/
def Named : CompactPc → Prop
  | .idle | .merging _ | .raised _ => False
  | _ => True

omit [Log L] in
theorem named_of_stamped {pc : CompactPc} (h : Stamped pc) : Named pc := by
  cases pc with
  | idle | merging | written | raised => exact h.elim
  | described | added | removing | removed | unlinking | returned => trivial

/-- How the tables stand to what they would be without the compaction under way. -/
structure Shadow (c : Workers L) (g : Ghost) : Prop where
  config : (c.withTables g.without).config.Inv
  named : FlushNamed c
  compaction : PcInv (newPath c g) g.createdMs g.without c.tables g.level0 c.compaction
  fresh : ¬g.without.Listed (newPath c g)
  distinct : ((readOrder g.without.manifest).map SSTableMeta.path).Nodup
  newest : g.level0 ≠ [] → Stamped c.compaction →
    ∀ m ∈ g.without.manifest.getLevelSstables 1, m.createdAtMs.getD 0 < g.createdMs

/-- The paths and readings that are still to come are new. -/
structure Awaits (c : Workers L) (g : Ghost) (paths : List (Bool × Path)) (readings : List Nat) : Prop where
  unlisted : ∀ path ∈ paths, ¬g.without.Listed path.2
  flushing : ∀ path ∈ paths, path.2 ∉ c.config.flush.underWay
  compacting : g.level0 ≠ [] → Named c.compaction → ∀ path ∈ paths, path.2 ≠ newPath c g
  newer : ∀ nowMs ∈ readings, Newer g.without nowMs
  described : ∀ m walOffset, c.config.flush = .described m walOffset →
    ∀ nowMs ∈ readings, m.createdAtMs.getD 0 < nowMs
  stamped : g.level0 ≠ [] → Stamped c.compaction → ∀ nowMs ∈ readings, g.createdMs < nowMs

section Steps

variable {c : Workers L} {g : Ghost}

omit [Log L] in
/-- A table under way is not listed. -/
theorem unlisted_underWay {m : MemTable} {t : Tables} {pc : FlushPc} (h : FlushInv m t pc) :
    ∀ path ∈ pc.underWay, ¬t.Listed path := by
  cases pc with
  | written sstable walOffset =>
    obtain ⟨_, _, _, _, _, hfree⟩ := h
    exact fun path hmem => by rwa [List.mem_singleton.mp hmem]
  | described metadata walOffset =>
    obtain ⟨_, _, _, _, hfree, _⟩ := h
    exact fun path hmem => by rwa [List.mem_singleton.mp hmem]
  | idle | collected | writing | added | saved | recorded | cleared | returned | raised =>
    exact fun _ hmem => absurd hmem List.not_mem_nil

omit [Log L] in
/-- The file of a table that a flush has under way is the same on both sides. -/
theorem Shadow.files_underWay (h : Shadow c g) :
    ∀ path ∈ c.config.flush.underWay, c.tables.files path = g.without.files path := by
  intro path hmem
  refine h.compaction.files_eq (fun hlevel => ?_) ?_
  · obtain ⟨m, hm, heq⟩ := List.mem_map.mp hlevel
    exact unlisted_underWay h.config.flush path hmem (heq ▸ pcInv_listed h.compaction m hm)
  · obtain ⟨nameMs, hname⟩ := h.named path hmem
    rw [hname]
    exact Tables.sstablePath_ne_compactedPath _ _ _

/-- **A step of a thread** keeps the comparison. -/
theorem Shadow.thread (h : Shadow c g) {a : Action} (hok : (c.withTables g.without).config.FlushOk a) :
    ∃ without', Shadow (c.act (.thread a)) { g with without := without' } ∧
      Mirrored c (c.act (.thread a)) g.without without' a ∧
      (c.act (.thread a)).config.engine.storagePath = c.config.engine.storagePath ∧
      LayeredStore.Step (store c.config.engine.memtable g.without) (c.config.event a)
        (store (c.act (.thread a)).config.engine.memtable without') := by
  obtain ⟨without', hmirrored⟩ := mirrored_thread h.config h.named h.files_underWay hok
  have hstepped := Config.act_step h.config hok
  rw [hmirrored.act] at hstepped
  have hpath : (c.act (.thread a)).config.engine.storagePath = c.config.engine.storagePath := hstepped.storagePath
  have hnew : newPath (c.act (.thread a)) { g with without := without' } = newPath c g := by
    rw [newPath, newPath, hpath]
  refine ⟨without', ⟨hstepped.inv, hmirrored.named, ?_, ?_, hmirrored.alike.distinct h.distinct, ?_⟩, hmirrored, hpath,
    hstepped.step⟩
  · rw [hnew, hmirrored.compaction]
    exact h.compaction.alike hmirrored.alike
  · rw [hnew]
    exact hmirrored.alike.not_listed h.fresh
  · rw [hmirrored.compaction]
    intro hne hstamped
    rw [hmirrored.alike.level1]
    exact h.newest hne hstamped

/-! ## Steps of the compaction -/

omit [Log L] in
/-- What a flush relies on, with other tables that answer the same. -/
theorem flushInv_tables {m : MemTable} {t t' : Tables} {pc : FlushPc} (h : FlushInv m t pc)
    (hfiles : ∀ path ∈ pc.underWay, t'.files path = t.files path) (hlisted : ∀ path ∈ pc.underWay, ¬t'.Listed path)
    (hlevel0 : ∀ m ∈ t'.manifest.getLevelSstables 0, m ∈ t.manifest.getLevelSstables 0) (hlayer : t'.layer = t.layer) :
    FlushInv m t' pc := by
  cases pc with
  | written sstable walOffset =>
    obtain ⟨items, hne, hold, hholds, hindex, -⟩ := h
    have hmem : sstable.path ∈ FlushPc.underWay (.written sstable walOffset) := List.mem_singleton_self _
    exact ⟨items, hne, hold, ⟨(hfiles _ hmem).trans hholds.file, hholds.ascending, hholds.fits⟩, hindex, hlisted _ hmem⟩
  | described metadata walOffset =>
    obtain ⟨items, hne, hold, hlists, -, hnew⟩ := h
    have hmem : metadata.path ∈ FlushPc.underWay (.described metadata walOffset) := List.mem_singleton_self _
    exact ⟨items, hne, hold, hlists.congr (hfiles _ hmem), hlisted _ hmem, fun m' hm' => hnew m' (hlevel0 m' hm')⟩
  | added walOffset | saved walOffset | recorded walOffset =>
    obtain ⟨items, hne, hold, hbelow⟩ := h
    exact ⟨items, hne, hold, hlayer ▸ hbelow⟩
  | idle | collected | writing | cleared | returned | raised => exact h

/-- A step that neither writers nor readers see. -/
structure Unseen (c c' : Workers L) (g g' : Ghost) (work : Work L) : Prop where
  shadow : Shadow c' g'
  memtable : c'.config.engine.memtable = c.config.engine.memtable
  flush : c'.config.flush = c.config.flush
  layer : g'.without.layer = g.without.layer
  listed : ∀ m ∈ readOrder g'.without.manifest, m ∈ readOrder g.without.manifest ∨
    g.level0 ≠ [] ∧ Stamped c.compaction ∧ m.path = newPath c g ∧ m.createdAtMs = some g.createdMs
  compacting : g'.level0 ≠ [] → Named c'.compaction →
    g.level0 ≠ [] ∧ Named c.compaction ∧ newPath c' g' = newPath c g ∨ (true, newPath c' g') ∈ names c work
  stamped : g'.level0 ≠ [] → Stamped c'.compaction →
    g.level0 ≠ [] ∧ Stamped c.compaction ∧ g'.createdMs = g.createdMs ∨ g'.createdMs ∈ created c work

omit [Log L] in
theorem unseen_refl (h : Shadow c g) (work : Work L) : Unseen c c g g work :=
  ⟨h, rfl, rfl, rfl, fun _ hm => .inl hm, fun hne hnamed => .inl ⟨hne, hnamed, rfl⟩,
    fun hne hstamped => .inl ⟨hne, hstamped, rfl⟩⟩

omit [Log L] in
/-- Some path is not listed. -/
theorem exists_unlisted (storagePath : Path) (t : Tables) : ∃ timeNs, ¬t.Listed (compactedPath storagePath timeNs) := by
  have hinfinite : (Set.range (compactedPath storagePath)).Infinite :=
    Set.infinite_range_of_injective fun a b h => Tables.compactedPath_inj h
  obtain ⟨path, ⟨timeNs, rfl⟩, hfree⟩ :=
    hinfinite.exists_notMem_finset ((readOrder t.manifest).map SSTableMeta.path).toFinset
  refine ⟨timeNs, ?_⟩
  rintro ⟨m, hm, heq⟩
  exact hfree (List.mem_toFinset.mpr (List.mem_map.mpr ⟨m, hm, heq⟩))

omit [Log L] in
/-- **The comparison starts anew** when the compaction is over, or is given up outside of the
removal of the merged entries. -/
theorem Shadow.anew (h : Shadow c g) (hwindow : ¬Window c.compaction) {pc : CompactPc}
    (hpc : pc = .idle ∨ ∃ e, pc = .raised e) (work : Work L) :
    ∃ g', Unseen c { c with compaction := pc } g g' work := by
  have hsettled := settled_of_pcInv h.compaction h.config.readable h.fresh h.distinct h.newest hwindow
  obtain ⟨timeNs, hfresh⟩ := exists_unlisted c.config.engine.storagePath c.tables
  have hempty : ∀ {p : Prop}, ([] : List SSTableMeta) ≠ [] → p := fun hne => absurd rfl hne
  have hunlisted : ∀ path ∈ c.config.flush.underWay, ¬c.tables.Listed path := by
    rintro path hmem ⟨m, hm, heq⟩
    rcases listed_of_pcInv h.compaction hm with hm | ⟨-, -, hpath, -⟩
    · exact unlisted_underWay h.config.flush path hmem ⟨m, hm, heq⟩
    · obtain ⟨nameMs, hname⟩ := h.named path hmem
      exact Tables.sstablePath_ne_compactedPath _ _ _ (hname.symm.trans (heq.symm.trans hpath))
  refine ⟨⟨c.tables, [], timeNs, 0⟩, ⟨⟨hsettled.readable, ?_⟩, h.named, ?_, hfresh, hsettled.distinct, hempty⟩, rfl, rfl,
    hsettled.layer, fun m hm => listed_of_pcInv h.compaction hm, hempty, hempty⟩
  · exact flushInv_tables h.config.flush h.files_underWay hunlisted hsettled.level0 hsettled.layer
  · rcases hpc with rfl | ⟨e, rfl⟩
    · exact pcInv_idle c.tables
    · exact (tracks_refl c.tables).mono (List.nil_subset _)

omit [Log L] in
/-- A step of a run with the readings it has taken. -/
theorem Shadow.advance (h : Shadow c g)
    (hclock : ∀ infos newSstable, c.compaction = .written infos newSstable → Newer g.without g.createdMs) :
    Shadow
      { c.withTables (next c.config.engine.storagePath g.timeNs g.createdMs c.tables c.compaction).1 with
        compaction := (next c.config.engine.storagePath g.timeNs g.createdMs c.tables c.compaction).2 }
      { g with level0 :=
        snapshot g.level0 (next c.config.engine.storagePath g.timeNs g.createdMs c.tables c.compaction).2 } := by
  refine ⟨h.config, h.named, pcInv_next h.compaction h.config.readable h.fresh, h.fresh, h.distinct, ?_⟩
  intro hne hstamped m hm
  rcases stamped_next hstamped with hbefore | ⟨infos, newSstable, hwritten⟩ | ⟨hidle, hdone⟩
  · have hsame : snapshot g.level0
        (next c.config.engine.storagePath g.timeNs g.createdMs c.tables c.compaction).2 = g.level0 :=
      snapshot_of_ne (fun heq : c.compaction = .idle => by rw [heq] at hbefore; exact hbefore) g.level0
    exact h.newest (hsame ▸ hne) hbefore m hm
  · exact hclock infos newSstable hwritten m (mem_readOrder.mpr ⟨1, hm⟩)
  · -- nothing is merged
    have hempty := h.compaction
    rw [hidle] at hempty
    simp only [hdone, snapshot] at hne
    exact absurd hempty.1 hne

/-- **A step of the compaction** keeps the comparison, or a new one begins. -/
theorem Shadow.compact (h : Shadow c g) {timeNs nowMs : Nat}
    (hname : ∀ infos, c.compaction = .merging infos →
      ¬g.without.Listed (compactedPath c.config.engine.storagePath timeNs))
    (hclock : ∀ infos newSstable, c.compaction = .written infos newSstable → Newer g.without nowMs) :
    ∃ g', Unseen c (c.act (.compact timeNs nowMs)) g g' (.compact timeNs nowMs) := by
  obtain ⟨config, pc⟩ := c
  -- a step that takes no reading: the table has its path and its time already, or none
  have hsteady : pc ≠ .idle → (∀ infos newSstable, pc ≠ .written infos newSstable) → Named pc →
      (Stamped (next config.engine.storagePath g.timeNs g.createdMs config.engine.tables pc).2 → Stamped pc) →
      ∃ g', Unseen ⟨config, pc⟩
        { withTables ⟨config, pc⟩ (next config.engine.storagePath g.timeNs g.createdMs config.engine.tables pc).1 with
          compaction := (next config.engine.storagePath g.timeNs g.createdMs config.engine.tables pc).2 }
        g g' (.compact timeNs nowMs) := by
    intro hidle hwritten hnamed hstamped
    have hshadow := h.advance fun infos newSstable heq => absurd heq (hwritten infos newSstable)
    have hsame : snapshot g.level0 (next config.engine.storagePath g.timeNs g.createdMs config.engine.tables pc).2 =
        g.level0 := snapshot_of_ne hidle g.level0
    refine ⟨_, hshadow, rfl, rfl, rfl, fun m hm => .inl hm, fun hne _ => .inl ⟨hsame ▸ hne, hnamed, rfl⟩,
      fun hne hs => .inl ⟨hsame ▸ hne, hstamped hs, rfl⟩⟩
  have hend : ∀ {pc : CompactPc}, Shadow ⟨config, pc⟩ g → ¬Window pc →
      ∃ g', Unseen ⟨config, pc⟩ ⟨config, .idle⟩ g g' (.compact timeNs nowMs) :=
    fun h hwindow => h.anew hwindow (.inl rfl) _
  cases pc with
  | returned => exact hend h id
  | raised e => exact hend h id
  | idle =>
    have hshadow := h.advance fun infos newSstable heq => by cases heq
    have hnil : g.level0 = [] := h.compaction.1
    have hnone : ∀ {p : Prop},
        (snapshot g.level0 (next config.engine.storagePath g.timeNs g.createdMs config.engine.tables .idle).2) ≠ [] →
        Named (next config.engine.storagePath g.timeNs g.createdMs config.engine.tables .idle).2 → p := by
      intro p hne hnamed
      rw [next] at hne hnamed
      split at hnamed
      · next hempty =>
        rw [if_pos hempty] at hne
        exact absurd hnil hne
      · exact hnamed.elim
    exact ⟨_, hshadow, rfl, rfl, rfl, fun m hm => .inl hm, hnone,
      fun hne hstamped => hnone hne (named_of_stamped hstamped)⟩
  | merging infos =>
    have hread : Shadow ⟨config, .merging infos⟩ { g with timeNs := timeNs, createdMs := nowMs } :=
      ⟨h.config, h.named, h.compaction, hname infos rfl, h.distinct, fun _ hstamped => hstamped.elim⟩
    have hshadow := hread.advance fun infos newSstable heq => by cases heq
    obtain ⟨content, -, hpc⟩ := next_merging config.engine.storagePath timeNs nowMs config.engine.tables infos
    refine ⟨_, hshadow, rfl, rfl, rfl, fun m hm => .inl hm, fun _ _ => .inr (List.mem_singleton_self _),
      fun _ hstamped => ?_⟩
    have hnot : Stamped (next config.engine.storagePath timeNs nowMs config.engine.tables (.merging infos)).2 := hstamped
    rcases hpc with ⟨newSstable, heq⟩ | ⟨e, heq⟩ <;>
    · rw [heq] at hnot
      exact hnot.elim
  | written infos newSstable =>
    have hread : Shadow ⟨config, .written infos newSstable⟩ { g with createdMs := nowMs } :=
      ⟨h.config, h.named, h.compaction, h.fresh, h.distinct, fun _ hstamped => hstamped.elim⟩
    have hshadow := hread.advance fun infos newSstable heq => hclock infos newSstable heq
    refine ⟨_, hshadow, rfl, rfl, rfl, fun m hm => .inl hm, fun hne _ => .inl ⟨?_, trivial, rfl⟩,
      fun _ _ => .inr (List.mem_singleton_self _)⟩
    have hsame : snapshot g.level0
        (next config.engine.storagePath g.timeNs nowMs config.engine.tables (.written infos newSstable)).2 = g.level0 :=
      snapshot_of_ne (fun heq : CompactPc.written infos newSstable = .idle => by cases heq) g.level0
    exact hsame ▸ hne
  | described infos metadata | added infos | removed infos rest =>
    exact hsteady (by rintro ⟨⟩) (by rintro _ _ ⟨⟩) trivial fun _ => trivial
  | removing infos rest =>
    cases rest <;> exact hsteady (by rintro ⟨⟩) (by rintro _ _ ⟨⟩) trivial fun _ => trivial
  | unlinking rest => cases rest <;> exact hsteady (by rintro ⟨⟩) (by rintro _ _ ⟨⟩) trivial fun _ => trivial

/-- A part of the file of a flush. -/
theorem Shadow.flushPart (h : Shadow c g) {nowMs : Nat} {content : Option Bytes}
    (hfree : Config.NameFree c.config.engine.storagePath g.without nowMs c.config.flush) :
    ∃ g', Unseen c (c.act (.flushPart nowMs content)) g g' (.flushPart nowMs content) := by
  obtain ⟨⟨e, writers, flush⟩, pc⟩ := c
  cases flush with
  | writing items walOffset =>
    have halike := Alike.file (t := e.tables) nowMs content hfree
    refine ⟨{ g with without := g.without.setFile (sstablePath e.storagePath nowMs) content }, ⟨⟨?_, h.config.flush⟩,
      h.named, h.compaction.alike halike, halike.not_listed h.fresh, h.distinct, h.newest⟩, rfl, rfl,
      Tables.layer_setFile hfree content, fun m hm => .inl hm, fun hne hn => .inl ⟨hne, hn, rfl⟩,
      fun hne hs => .inl ⟨hne, hs, rfl⟩⟩
    exact Tables.readable_setFile h.config.readable hfree content
  | idle | collected | written | described | added | saved | recorded | cleared | returned | raised =>
    exact ⟨g, unseen_refl h _⟩

/-- A part of the file of the compaction. -/
theorem Shadow.compactPart (h : Shadow c g) {timeNs : Nat} {content : Option Bytes}
    (hname : ∀ infos, c.compaction = .merging infos →
      ¬g.without.Listed (compactedPath c.config.engine.storagePath timeNs)) :
    ∃ g', Unseen c (c.act (.compactPart timeNs content)) g g' (.compactPart timeNs content) := by
  obtain ⟨config, pc⟩ := c
  cases pc with
  | merging infos =>
    have hfree := hname infos rfl
    obtain ⟨heq, hne, htracks⟩ := h.compaction
    have hfiles : ∀ path ∈ config.flush.underWay,
        (g.without.setFile (compactedPath config.engine.storagePath timeNs) content).files path = g.without.files path := by
      intro path hmem
      obtain ⟨nameMs, rfl⟩ := h.named path hmem
      exact Function.update_of_ne (Tables.sstablePath_ne_compactedPath _ _ _) ..
    have hunlisted : ∀ path ∈ config.flush.underWay, ¬g.without.Listed path := unlisted_underWay h.config.flush
    have hlayer := Tables.layer_setFile hfree content
    refine ⟨{ g with without := g.without.setFile (compactedPath config.engine.storagePath timeNs) content },
      ⟨⟨Tables.readable_setFile h.config.readable hfree content, ?_⟩, h.named, ⟨heq, hne, htracks.setBoth _ content⟩,
        h.fresh, h.distinct, fun _ hstamped => hstamped.elim⟩, rfl, rfl, hlayer, fun m hm => .inl hm,
      fun _ hnamed => hnamed.elim, fun _ hstamped => hstamped.elim⟩
    exact flushInv_tables h.config.flush hfiles hunlisted (fun _ hm => hm) hlayer
  | idle | written | described | added | removing | removed | unlinking | returned | raised => exact ⟨g, unseen_refl h _⟩

/-- An exception in the compaction, outside of the removal of the merged entries. -/
theorem Shadow.compactRaise (h : Shadow c g) (hwindow : ¬Window c.compaction) {timeNs : Nat} {content : Option Bytes}
    (hname : ∀ infos, c.compaction = .merging infos →
      ¬g.without.Listed (compactedPath c.config.engine.storagePath timeNs)) :
    ∃ g', Unseen c (c.act (.compactRaise timeNs content)) g g' (.compactRaise timeNs content) := by
  obtain ⟨config, pc⟩ := c
  have hraised : ∃ g', Unseen ⟨config, pc⟩ ⟨config, .raised .osError⟩ g g' (.compactRaise timeNs content : Work L) :=
    h.anew hwindow (.inr ⟨_, rfl⟩) _
  cases pc with
  | merging infos =>
    obtain ⟨heq, hne, htracks⟩ := h.compaction
    refine ⟨{ g with timeNs := timeNs }, ⟨h.config, h.named, htracks.setFile _ content, hname infos rfl, h.distinct,
      fun _ hstamped => hstamped.elim⟩, rfl, rfl, rfl, fun m hm => .inl hm, fun _ hn => hn.elim, fun _ hs => hs.elim⟩
  | idle | returned | raised => exact ⟨g, unseen_refl h _⟩
  | written | described | added | removing | removed | unlinking => exact hraised

/-- A file that cannot be unlinked stays. -/
theorem Shadow.passOver (h : Shadow c g) : ∃ g', Unseen c (c.act .passOver) g g' .passOver := by
  obtain ⟨config, pc⟩ := c
  cases pc with
  | unlinking rest =>
    cases rest with
    | nil => exact ⟨g, unseen_refl h _⟩
    | cons info rest =>
      obtain ⟨metadata, merged, done, hsplit, htracks, hnew⟩ := h.compaction
      refine ⟨g, ⟨h.config, h.named, ⟨metadata, merged, done ++ [info], ?_, htracks.mono ?_, hnew⟩, h.fresh, h.distinct,
        h.newest⟩, rfl, rfl, rfl, fun m hm => .inl hm, fun hne hn => .inl ⟨hne, hn, rfl⟩,
        fun hne hs => .inl ⟨hne, hs, rfl⟩⟩
      · rw [hsplit, List.append_assoc]
        rfl
      · rw [List.map_append, List.append_assoc]
        exact List.append_subset.mpr ⟨List.subset_append_left _ _,
          List.subset_append_of_subset_right _ (List.subset_append_right _ _)⟩
  | idle | merging | written | described | added | removing | removed | returned | raised => exact ⟨g, unseen_refl h _⟩

/-! ## All steps -/

/-- An action as a reader sees it. -/
def event (c : Workers L) : Work L → LayeredStore.Event Bytes Bytes
  | .thread a => c.config.event a
  | _ => .quiet

/-- No exception ends a compaction while it is removing entries, and nothing restarts. -/
def Steady (c : Workers L) : Work L → Prop
  | .compactRaise _ _ => ¬Window c.compaction
  | .restart _ _ => False
  | _ => True

instance (c : Workers L) : (work : Work L) → Decidable (Steady c work)
  | .compactRaise _ _ => inferInstanceAs (Decidable (¬Window c.compaction))
  | .restart _ _ => .isFalse id
  | .thread _ | .flushPart _ _ | .compact _ _ | .compactPart _ _ | .passOver => .isTrue trivial

/-- What a step leaves, with the paths and readings that come after it. -/
structure Stepped (c : Workers L) (g g' : Ghost) (work : Work L) (paths : List (Bool × Path)) (readings : List Nat) :
    Prop where
  shadow : Shadow (c.act work) g'
  awaits : Awaits (c.act work) g' paths readings
  step : LayeredStore.Step (store c.config.engine.memtable g.without) (c.event work)
    (store (c.act work).config.engine.memtable g'.without)

section Next

variable {work : Work L} {paths : List (Bool × Path)} {readings : List Nat}

omit [Log L] in
/-- New paths and readings make a step of a flush go well. -/
theorem flushOk_of_awaits {a : Action} (h : Awaits c g (names c (.thread a) ++ paths) (created c (.thread a) ++ readings)) :
    (c.withTables g.without).config.FlushOk a := by
  have hfree := h.unlisted
  have hnewer := h.newer
  obtain ⟨⟨e, writers, flush⟩, compaction⟩ := c
  cases a with
  | put | delete | batchPut | write | rotate => trivial
  | raise nowMs content =>
    show Config.NameFree e.storagePath g.without nowMs flush
    cases flush with
    | writing items walOffset => exact hfree _ List.mem_cons_self
    | idle | collected | written | described | added | saved | recorded | cleared | returned | raised => trivial
  | flush nowMs =>
    show FlushClock e.storagePath g.without nowMs flush
    cases flush with
    | writing items walOffset => exact hfree _ List.mem_cons_self
    | written sstable walOffset =>
      intro m hm
      exact Prod.Lex.toLex_le_toLex.mpr (.inl (hnewer nowMs List.mem_cons_self m (mem_readOrder.mpr ⟨0, hm⟩)))
    | idle | collected | described | added | saved | recorded | cleared | returned | raised => trivial

theorem stepped_thread (h : Shadow c g) {a : Action}
    (hawaits : Awaits c g (names c (.thread a) ++ paths) (created c (.thread a) ++ readings))
    (hpaths : (names c (.thread a) ++ paths).Pairwise Later)
    (hreadings : (created c (.thread a) ++ readings).Pairwise (· < ·)) :
    ∃ g', Stepped c g g' (.thread a) paths readings := by
  obtain ⟨without', hshadow, hmirrored, hpath, hstep⟩ := h.thread (flushOk_of_awaits hawaits)
  refine ⟨{ g with without := without' }, hshadow, ⟨?_, ?_, ?_, ?_, ?_, ?_⟩, hstep⟩
  · rintro path hmem ⟨m, hm, heq⟩
    have hmem' := List.mem_append_right (names c (.thread a)) hmem
    rcases hmirrored.listed m hm with hm | ⟨walOffset, hflush⟩
    · exact hawaits.unlisted path hmem' ⟨m, hm, heq⟩
    · refine hawaits.flushing path hmem' ?_
      rw [hflush, ← heq]
      exact List.mem_singleton_self _
  · intro path hmem hunder
    rcases hmirrored.underWay path.2 hunder with hunder | hname
    · exact hawaits.flushing path (List.mem_append_right _ hmem) hunder
    · exact (List.pairwise_append.mp hpaths).2.2 _ hname _ hmem rfl rfl
  · rw [hmirrored.compaction]
    intro hne hnamed path hmem
    rw [newPath, hpath]
    exact hawaits.compacting hne hnamed path (List.mem_append_right _ hmem)
  · intro nowMs hmem m hm
    have hmem' := List.mem_append_right (created c (.thread a)) hmem
    rcases hmirrored.listed m hm with hm | ⟨walOffset, hflush⟩
    · exact hawaits.newer nowMs hmem' m hm
    · exact hawaits.described m walOffset hflush nowMs hmem'
  · intro m walOffset hflush nowMs hmem
    rcases hmirrored.described m walOffset hflush with hflush | ⟨ms, hms, heq⟩
    · exact hawaits.described m walOffset hflush nowMs (List.mem_append_right _ hmem)
    · rw [heq]
      exact (List.pairwise_append.mp hreadings).2.2 ms hms nowMs hmem
  · rw [hmirrored.compaction]
    exact fun hne hstamped nowMs hmem => hawaits.stamped hne hstamped nowMs (List.mem_append_right _ hmem)

theorem stepped_unseen (h : ∃ g', Unseen c (c.act work) g g' work) (hquiet : c.event work = .quiet)
    (hawaits : Awaits c g (names c work ++ paths) (created c work ++ readings))
    (hpaths : (names c work ++ paths).Pairwise Later) (hreadings : (created c work ++ readings).Pairwise (· < ·)) :
    ∃ g', Stepped c g g' work paths readings := by
  obtain ⟨g', hunseen⟩ := h
  refine ⟨g', hunseen.shadow, ⟨?_, ?_, ?_, ?_, ?_, ?_⟩, ?_⟩
  · rintro path hmem ⟨m, hm, heq⟩
    have hmem' := List.mem_append_right (names c work) hmem
    rcases hunseen.listed m hm with hm | ⟨hne, hstamped, hpath, -⟩
    · exact hawaits.unlisted path hmem' ⟨m, hm, heq⟩
    · exact hawaits.compacting hne (named_of_stamped hstamped) path hmem' (heq.symm.trans hpath)
  · rw [hunseen.flush]
    exact fun path hmem => hawaits.flushing path (List.mem_append_right _ hmem)
  · intro hne hnamed path hmem heq
    rcases hunseen.compacting hne hnamed with ⟨hne, hnamed, hsame⟩ | hname
    · exact hawaits.compacting hne hnamed path (List.mem_append_right _ hmem) (heq.trans hsame)
    · exact (List.pairwise_append.mp hpaths).2.2 _ hname _ hmem rfl heq.symm
  · intro nowMs hmem m hm
    have hmem' := List.mem_append_right (created c work) hmem
    rcases hunseen.listed m hm with hm | ⟨hne, hstamped, -, heq⟩
    · exact hawaits.newer nowMs hmem' m hm
    · rw [heq]
      exact hawaits.stamped hne hstamped nowMs hmem'
  · rw [hunseen.flush]
    exact fun m walOffset hflush nowMs hmem => hawaits.described m walOffset hflush nowMs (List.mem_append_right _ hmem)
  · intro hne hstamped nowMs hmem
    rcases hunseen.stamped hne hstamped with ⟨hne, hstamped, hsame⟩ | hread
    · rw [hsame]
      exact hawaits.stamped hne hstamped nowMs (List.mem_append_right _ hmem)
    · exact (List.pairwise_append.mp hreadings).2.2 _ hread _ hmem
  · rw [hquiet, store, store, hunseen.memtable, hunseen.layer]
    exact .idle _

/-- **Every step** keeps the comparison, and without the compaction under way it is a step of
the layered store. -/
theorem stepped_act (h : Shadow c g) (hawaits : Awaits c g (names c work ++ paths) (created c work ++ readings))
    (hpaths : (names c work ++ paths).Pairwise Later) (hreadings : (created c work ++ readings).Pairwise (· < ·))
    (hsteady : Steady c work) : ∃ g', Stepped c g g' work paths readings := by
  have hmerging : ∀ (complete : Bool) {timeNs : Nat},
      (∀ infos, c.compaction = .merging infos →
        (complete, compactedPath c.config.engine.storagePath timeNs) ∈ names c work) →
      ∀ infos, c.compaction = .merging infos →
        ¬g.without.Listed (compactedPath c.config.engine.storagePath timeNs) :=
    fun _ _ hname infos heq => hawaits.unlisted _ (List.mem_append_left _ (hname infos heq))
  cases work with
  | thread a => exact stepped_thread h hawaits hpaths hreadings
  | restart memtable wal => exact hsteady.elim
  | passOver => exact stepped_unseen h.passOver rfl hawaits hpaths hreadings
  | flushPart nowMs content =>
    refine stepped_unseen (h.flushPart ?_) rfl hawaits hpaths hreadings
    cases hflush : c.config.flush with
    | writing items walOffset =>
      refine hawaits.unlisted (false, _) (List.mem_append_left _ ?_)
      rw [names, hflush]
      exact List.mem_singleton_self _
    | idle | collected | written | described | added | saved | recorded | cleared | returned | raised => trivial
  | compact timeNs nowMs =>
    refine stepped_unseen (h.compact (hmerging true ?_) ?_) rfl hawaits hpaths hreadings
    · intro infos heq
      rw [names, heq]
      exact List.mem_singleton_self _
    · intro infos newSstable heq
      refine hawaits.newer nowMs (List.mem_append_left _ ?_)
      rw [created, heq]
      exact List.mem_singleton_self _
  | compactPart timeNs content =>
    refine stepped_unseen (h.compactPart (hmerging false ?_)) rfl hawaits hpaths hreadings
    intro infos heq
    rw [names, heq]
    exact List.mem_singleton_self _
  | compactRaise timeNs content =>
    refine stepped_unseen (h.compactRaise hsteady (hmerging false ?_)) rfl hawaits hpaths hreadings
    intro infos heq
    rw [names, heq]
    exact List.mem_singleton_self _

end Next

end Steps

/-! ## Beginning and end of a comparison -/

section Ends

variable {c : Workers L} {g : Ghost}

/-- The memtable with the tables without the compaction under way. -/
def shadowStore (c : Workers L) (g : Ghost) : LayeredStore Bytes Bytes := store c.config.engine.memtable g.without

/-- An engine on which no thread has begun. -/
def opened (e : LSMStorageEngine L) : Workers L := ⟨.start e, .idle⟩

omit [Log L] in
/-- At the start there is nothing to compare. -/
theorem shadow_opened {e : LSMStorageEngine L} (h : Sound e) {paths : List (Bool × Path)} {readings : List Nat}
    (hunused : ∀ path ∈ paths, ¬e.tables.Listed path.2) (hlater : ∀ nowMs ∈ readings, Newer e.tables nowMs) :
    ∃ g, g.without = e.tables ∧ Shadow (opened e) g ∧ Awaits (opened e) g paths readings := by
  obtain ⟨timeNs, hfresh⟩ := exists_unlisted e.storagePath e.tables
  have hnone : ∀ {p : Prop}, ([] : List SSTableMeta) ≠ [] → p := fun hne => absurd rfl hne
  refine ⟨⟨e.tables, [], timeNs, 0⟩, rfl, ⟨Config.inv_start h.readable, fun _ hmem => absurd hmem List.not_mem_nil,
    pcInv_idle e.tables, hfresh, h.distinct, hnone⟩, ?_⟩
  exact ⟨hunused, fun _ _ => List.not_mem_nil, hnone, hlater, fun _ _ heq => (by cases heq), hnone⟩

omit [Log L] in
/-- What readers find outside of the removal of merged entries. -/
theorem Shadow.settled (h : Shadow c g) (hwindow : ¬Window c.compaction) : Settled g.without c.tables :=
  settled_of_pcInv h.compaction h.config.readable h.fresh h.distinct h.newest hwindow

omit [Log L] in
/-- Paths that are still to come are not listed. -/
theorem Awaits.not_listed {paths : List (Bool × Path)} {readings : List Nat} (h : Awaits c g paths readings)
    (hshadow : Shadow c g) : ∀ path ∈ paths, ¬c.tables.Listed path.2 := by
  rintro path hmem ⟨m, hm, heq⟩
  rcases listed_of_pcInv hshadow.compaction hm with hm | ⟨hne, hstamped, hpath, -⟩
  · exact h.unlisted path hmem ⟨m, hm, heq⟩
  · exact h.compacting hne (named_of_stamped hstamped) path hmem (heq.symm.trans hpath)

end Ends

end Workers

end Logvine
