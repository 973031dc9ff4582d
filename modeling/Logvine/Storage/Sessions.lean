import Logvine.Base.Runs
import Logvine.Storage.CompactionCrash
import Logvine.Storage.CrashRecovery
import Logvine.Storage.WriteUnderWay

/-!
# Sessions

One directory through any number of sessions. In each of them an engine is started on what the
one before has left. One thread writes to it, call after call; flushes go on beside it step by
step, and compactions between flushes. The session ends at any moment, also between the two
steps of a write, within a flush, or within a compaction.

- `Event`: what happens next; `Event.run` is the engine in use afterwards, if it starts;
- `Event.effect`: a write counts when it has changed the memtable, or when it has been logged
  and the engine stops;
- `Session`: what holds of the directory and of the engine in use at every point;
- `session_step`: every event that goes well keeps it;
- `sessions_hold`: if all do, every start succeeds, and all reads are those of the map that
  the writes of all sessions make.

An engine does nothing when it stops: it has no `close`, and flushes run in daemon threads
(`engine.py`, 166 and 278) that end with the process, wherever they are. So the end of a
session is a crash, and all that a session leaves to the next is the log, the manifest file
and the tables.
-/

namespace Logvine

open Layer SSTableManager

namespace LSMStorageEngine

/-! ## Tables under distinct names -/

/-- No two listed tables have the same path. -/
def Tables.Distinct (t : Tables) : Prop := ((readOrder t.manifest).map SSTableMeta.path).Nodup

section Flush

variable {L : Type} [Log L] {e : LSMStorageEngine L}

/-- A flush keeps the names distinct, in memory and in the file. -/
theorem distinct_flushNext {pc : FlushPc} (h : FlushInv e.memtable e.tables pc)
    (hd : Tables.Distinct e.tables ∧ Tables.Distinct e.tables.reload) (nowMs : Nat) :
    Tables.Distinct (flushNext nowMs e pc).1.tables ∧ Tables.Distinct (flushNext nowMs e pc).1.tables.reload := by
  cases pc with
  | idle =>
    rw [flushNext]
    split <;> exact hd
  | writing items walOffset =>
    obtain ⟨content, heq⟩ := e.tables.write_eq_setFile (.init (sstablePath e.storagePath nowMs) 0) items
    rw [flushNext]
    cases hwrite : e.tables.write (.init (sstablePath e.storagePath nowMs) 0) items with
    | mk t result =>
      rw [hwrite] at heq
      obtain rfl : t = e.tables.setFile (sstablePath e.storagePath nowMs) content := heq
      cases result <;> exact hd
  | written sstable walOffset =>
    rw [flushNext]
    split <;> exact hd
  | described metadata walOffset =>
    obtain ⟨-, -, -, -, hfree, -⟩ := h
    refine ⟨?_, hd.2⟩
    have hperm := (readOrder_addEntry_perm e.tables.manifest metadata).map SSTableMeta.path
    rw [List.map_cons] at hperm
    refine hperm.nodup_iff.mpr (List.nodup_cons.mpr ⟨fun hmem => ?_, hd.1⟩)
    obtain ⟨m, hm, heq⟩ := List.mem_map.mp hmem
    exact hfree ⟨m, hm, heq⟩
  | added walOffset | saved walOffset => exact ⟨hd.1, hd.1⟩
  | collected | recorded | cleared | returned | raised => exact hd

end Flush

/-- Without a flush the file lists what memory lists. -/
theorem distinct_reload {t : Tables} (hlevels : t.reload.manifest.levels = t.manifest.levels)
    (hd : Tables.Distinct t) : Tables.Distinct t.reload := by
  have horder : readOrder t.reload.manifest = readOrder t.manifest := by
    rw [readOrder, readOrder, Manifest.iterLevels, Manifest.iterLevels, hlevels]
  rwa [Tables.Distinct, horder]

/-! ## Events -/

/-- A step of the writer or of the flush, a compaction, or a stop of the engine, between two
other events or within a compaction after some of its steps, and the start of the next one. -/
inductive Event where
  | act (a : Action)
  | compact (nowNs createdMs : Nat)
  | crash
  | crashCompacting (nowNs createdMs steps : Nat)
deriving DecidableEq, Repr

/-- The first steps of a compaction. -/
def compactSteps {L : Type} (nowNs createdMs steps : Nat) (e : LSMStorageEngine L) :
    Tables × CompactionManager.CompactPc :=
  (fun s => CompactionManager.next e.storagePath nowNs createdMs s.1 s.2)^[steps] (e.tables, .idle)

/-- The same engine with other tables. -/
def withTables {L : Type} (e : LSMStorageEngine L) (t : Tables) : LSMStorageEngine L := { e with tables := t }

/-- The engine as the write under way will leave it. -/
def Config.completed {L : Type} (c : Config L) : LSMStorageEngine L :=
  { c.engine with memtable := landed c.engine.memtable (c.writers 0) }

namespace FlushPc

/-- No flush is under way. -/
def Idle : FlushPc → Prop
  | .idle => True
  | _ => False

/-- A table is listed in memory and not in the file. -/
def Unsaved : FlushPc → Prop
  | .added _ => True
  | _ => False

theorem eq_of_idle {pc : FlushPc} (h : pc.Idle) : pc = .idle := by
  cases pc with
  | idle => rfl
  | collected | writing | written | described | added | saved | recorded | cleared | returned | raised => exact h.elim

instance : (pc : FlushPc) → Decidable pc.Idle
  | .idle => .isTrue trivial
  | .collected _ | .writing _ _ | .written _ _ | .described _ _ | .added _ | .saved _ | .recorded _ | .cleared _
  | .returned | .raised _ => .isFalse id

instance : (pc : FlushPc) → Decidable pc.Unsaved
  | .added _ => .isTrue trivial
  | .idle | .collected _ | .writing _ _ | .written _ _ | .described _ _ | .saved _ | .recorded _ | .cleared _
  | .returned | .raised _ => .isFalse id

end FlushPc

/-- A batch that is being measured has as many keys as values. -/
def WriterPc.Paired : WriterPc → Prop
  | .batchSizing keys values _ _ => keys.length = values.length
  | _ => True

theorem WriterPc.Paired.writeNext {L : Type} [Log L] {e : LSMStorageEngine L} {pc : WriterPc} (h : pc.Paired) :
    (Config.writeNext e pc).2.Paired := by
  cases pc with
  | idle | putLogged key value offset | deleteLogged key offset | deleteApplied key offset
  | batchLogged items inputSize lastOffset => trivial
  | batchSizing keys values rest inputSize =>
    cases rest with
    | cons item rest => exact h
    | nil =>
      rw [Config.writeNext]
      split
      · trivial
      · rcases Log.appendBatch e.wal OperationType.put keys values with ⟨wal, err | lastOffset⟩ <;> trivial

/-- A batch that is accepted finds the log in order. -/
def AppendOk (e : LSMStorageEngine Wal) : WriterPc → Prop
  | .batchSizing keys values [] inputSize => inputSize ≤ e.memtableMaxSize →
      (∀ r ∈ Wal.batchRecords OperationType.put keys values, r.Fits) → e.wal.Synced
  | _ => True

/-- A cut at a positive offset finds the log in order. -/
def CutOk (e : LSMStorageEngine Wal) : FlushPc → Prop
  | .cleared walOffset => walOffset ≠ 0 → e.wal.Synced
  | _ => True

section Sessions

variable [Zlib]

/-- A new engine in the directory of another one. -/
def restart (e : LSMStorageEngine Wal) : Except Error (LSMStorageEngine Wal) :=
  init e.storagePath e.memtableMaxSize e.wal.disk e.tables

namespace Event

/-- The engine in use afterwards, if it starts. -/
def run (c : Config Wal) : Event → Except Error (Config Wal)
  | .act a => .ok (c.act a)
  | .compact nowNs createdMs =>
    .ok { c with engine := ((Op.compact nowNs createdMs).run c.engine).1 }
  | .crash => (restart c.engine).map .start
  | .crashCompacting nowNs createdMs steps =>
    (restart (c.engine.withTables (compactSteps nowNs createdMs steps c.engine).1)).map .start

/-- What it makes of the values that can be read. -/
def effect (c : Config Wal) (m : Contents) : Event → Contents
  | .act (.write writer) => (c.writers writer).effect m
  | .crash | .crashCompacting _ _ _ => (c.writers 0).effect m
  | .act _ | .compact _ _ => m

/-- There is one writer. Its appends and the cuts of a flush find the log in order, a new table
finds an unused name and a later time. No exception leaves a table unsaved, a compaction meets
no flush and is not cut off while some of its inputs are removed and some are not. -/
def Ok (c : Config Wal) : Event → Prop
  | .act (.put writer key value) => writer = 0 ∧ LogOk c.engine (.put key value)
  | .act (.delete writer key) => writer = 0 ∧ LogOk c.engine (.delete key)
  | .act (.batchPut writer _ _) => writer = 0
  | .act (.write writer) => writer = 0 ∧ AppendOk c.engine (c.writers 0)
  | .act .rotate => c.writers 0 = .idle
  | .act (.flush nowMs) => c.FlushOk (.flush nowMs) ∧ CutOk c.engine c.flush
  | .act (.raise nowMs content) => c.FlushOk (.raise nowMs content) ∧ ¬c.flush.Unsaved
  | .compact nowNs createdMs => c.flush.Idle ∧ ClockOk c.engine (.compact nowNs createdMs)
  | .crash => True
  | .crashCompacting nowNs createdMs steps => c.flush.Idle ∧ ClockOk c.engine (.compact nowNs createdMs) ∧
      ¬CompactionManager.Torn (compactSteps nowNs createdMs steps c.engine).2

end Event

/-- The engine in use after an event. -/
def step (c : Config Wal) (event : Event) : Config Wal :=
  match event.run c with
  | .ok c' => c'
  | .error _ => c

/-- The map the writes of all sessions make of `m`. -/
def contents : Config Wal → Contents → List Event → Contents
  | _, m, [] => m
  | c, m, event :: events => contents (step c event) (event.effect c m) events

/-! ## What every event keeps -/

/-- The directory is recoverable as it will be when the write under way is done, what is listed
is readable under distinct names, and the engine answers as the map. -/
structure Session (c : Config Wal) (m : Contents) : Prop where
  recovers : ∃ dead q, Recovers c.completed c.flush dead q
  paired : (c.writers 0).Paired
  inv : c.Inv
  distinct : Tables.Distinct c.engine.tables ∧ Tables.Distinct c.engine.tables.reload
  live : ∀ key, Reading.live (view c.engine key) = m key

theorem Session.sound {c : Config Wal} {m : Contents} (h : Session c m) : Sound c.engine :=
  ⟨h.inv.readable, h.distinct.1⟩

/-- What a reader does not see. -/
theorem Session.quiet {c c' : Config Wal} {m : Contents} (h : Session c m) (hstepped : Config.Stepped c c' .quiet)
    (hrecovers : ∃ dead q, Recovers c'.completed c'.flush dead q) (hpaired : (c'.writers 0).Paired)
    (hdistinct : Tables.Distinct c'.engine.tables ∧ Tables.Distinct c'.engine.tables.reload) : Session c' m := by
  have hview := LayeredStore.view_quiet hstepped.step
  refine ⟨hrecovers, hpaired, hstepped.inv, hdistinct, fun key => ?_⟩
  exact (congrArg Reading.live (congrFun hview key)).trans (h.live key)

omit [Zlib] in
theorem live_of_get {e : LSMStorageEngine Wal} (h : Sound e) {key : Bytes} {value : Option Bytes}
    (hget : e.get key = value.elim (.error (.keyError key)) .ok) : Reading.live (view e key) = value := by
  refine Option.ext fun v => ?_
  rw [← get_of_sound h, hget]
  cases value <;> simp

omit [Zlib] in
theorem Tables.reload_reload (t : Tables) : t.reload.reload = t.reload := by
  rw [Tables.reload, Tables.reload]
  cases t.manifest.saved <;> rfl

/-- A new engine. -/
theorem session_started {storagePath : Path} {memtableMaxSize : Int} {disk : NamedFile} {t : Tables}
    {rs : List LogRecord} (hdisk : disk.content.getD [] = encodeLog rs) (hfits : ∀ r ∈ rs, r.Fits)
    (hreadable : t.reload.Readable) (hdistinct : Tables.Distinct t.reload) {m : Contents}
    (hget : ∀ key, (started storagePath memtableMaxSize disk t rs).get key =
      (m key).elim (.error (.keyError key)) .ok) :
    Session (.start (started storagePath memtableMaxSize disk t rs)) m := by
  have hsound : Sound (started storagePath memtableMaxSize disk t rs) := ⟨hreadable, hdistinct⟩
  refine ⟨⟨_, _, recovers_started storagePath memtableMaxSize hdisk hfits hreadable⟩, trivial,
    Config.inv_start hreadable, ⟨hdistinct, ?_⟩, fun key => live_of_get hsound (hget key)⟩
  show Tables.Distinct t.reload.reload
  rwa [Tables.reload_reload]

/-- **A new engine** in the directory of one that stopped. -/
theorem session_restart {e : LSMStorageEngine Wal} {m : Contents} {pc : FlushPc}
    (hrecovers : ∃ dead q, Recovers e pc dead q)
    (hdistinct : Tables.Distinct e.tables ∧ Tables.Distinct e.tables.reload)
    (hlive : ∀ key, Reading.live (view e key) = m key) : ∃ e', restart e = .ok e' ∧ Session (.start e') m := by
  obtain ⟨dead, q, hrecovers⟩ := hrecovers
  obtain ⟨e', hinit, hget⟩ := hrecovers.restart e.memtableMaxSize
  have hdisk : e.wal.disk.content.getD [] = encodeLog (dead ++ q.contents) := by rw [hrecovers.holds.content]; rfl
  have hstarted := init_of_log e.storagePath e.memtableMaxSize e.wal.disk e.tables hdisk hrecovers.holds.fits
  obtain rfl := Except.ok.inj (hinit.symm.trans hstarted)
  obtain ⟨hreadable, -⟩ := hrecovers.saved.reload hrecovers.readable
  have hbefore : e.Holds m := holds_of_live ⟨hrecovers.readable, hdistinct.1⟩ hlive
  exact ⟨_, hinit, session_started hdisk hrecovers.holds.fits hreadable hdistinct.2
    fun key => (hget key).trans (hbefore.get key)⟩

/-! ## Writes -/

/-- What begins with a record in the log ends as the whole call. -/
theorem completed_put {c : Config Wal} (h : c.writers 0 = .idle) (key value : Bytes) :
    (c.act (.put 0 key value)).completed = ((Op.put key value).run c.engine).1 := by
  rw [Config.act, if_pos h, Config.completed, Config.engine_wrote, Config.writers_wrote, Config.begin, Op.run, put]
  rcases Log.append c.engine.wal OperationType.put key value with ⟨wal, err | offset⟩ <;> rfl

theorem completed_delete {c : Config Wal} (h : c.writers 0 = .idle) (key : Bytes) :
    (c.act (.delete 0 key)).completed = ((Op.delete key).run c.engine).1 := by
  rw [Config.act, if_pos h, Config.completed, Config.engine_wrote, Config.writers_wrote, Config.begin, Op.run, delete]
  rcases Log.append c.engine.wal OperationType.delete key [] with ⟨wal, err | offset⟩ <;> rfl

omit [Zlib] in
theorem completed_of_idle {c : Config Wal} (h : c.writers 0 = .idle) : c.completed = c.engine := by
  rw [Config.completed, h]
  rfl

/-- The step in which a batch is measured against the limit and logged. -/
theorem recovers_append {c : Config Wal} {keys values : List Bytes} {inputSize : Int} {dead : List LogRecord}
    {q : BufferQueue LogRecord} (h : Recovers c.engine c.flush dead q)
    (hpc : c.writers 0 = .batchSizing keys values [] inputSize) (hlen : keys.length = values.length)
    (hok : AppendOk c.engine (.batchSizing keys values [] inputSize)) :
    ∃ q', Recovers (c.act (.write 0)).completed c.flush dead q' := by
  have happend : Log.appendBatch c.engine.wal OperationType.put keys values =
    c.engine.wal.appendBatch OperationType.put keys values := rfl
  rw [Config.act, Config.completed, Config.engine_wrote, Config.writers_wrote, hpc, Config.writeNext]
  by_cases hsize : c.engine.memtableMaxSize < inputSize
  · rw [if_pos hsize]
    exact ⟨q, h⟩
  · have hs := hok (not_lt.mp hsize)
    rw [if_neg hsize, happend]
    rcases hresult : c.engine.wal.appendBatch OperationType.put keys values with ⟨wal, err | lastOffset⟩
    · exact ⟨q, (recovers_appendBatch h hlen hs inputSize hresult).1 err rfl⟩
    · exact (recovers_appendBatch h hlen hs inputSize hresult).2 lastOffset rfl

/-- **Every step of the writer** keeps the directory recoverable. -/
theorem recovers_write {c : Config Wal} (h : ∃ dead q, Recovers c.completed c.flush dead q)
    (hpaired : (c.writers 0).Paired) (hok : AppendOk c.engine (c.writers 0)) :
    ∃ dead q, Recovers (c.act (.write 0)).completed c.flush dead q := by
  have hsame : (c.act (.write 0)).completed = c.completed →
      ∃ dead q, Recovers (c.act (.write 0)).completed c.flush dead q := fun heq => by rwa [heq]
  have hcompleted : (c.act (.write 0)).completed =
      { (Config.writeNext c.engine (c.writers 0)).1 with
        memtable := landed (Config.writeNext c.engine (c.writers 0)).1.memtable
          (Config.writeNext c.engine (c.writers 0)).2 } := by
    rw [Config.act, Config.completed, Config.engine_wrote, Config.writers_wrote]
  cases hpc : c.writers 0 with
  | idle | putLogged key value offset | deleteLogged key offset | deleteApplied key offset
  | batchLogged items inputSize lastOffset =>
    refine hsame ?_
    rw [hcompleted, Config.completed, hpc]
    rfl
  | batchSizing keys values rest inputSize =>
    cases rest with
    | cons item rest =>
      refine hsame ?_
      rw [hcompleted, Config.completed, hpc]
      rfl
    | nil =>
      rw [hpc] at hok hpaired
      obtain ⟨dead, q, h⟩ := h
      rw [Config.completed, hpc] at h
      exact ⟨dead, recovers_append h hpc hpaired hok⟩

/-! ## Flushes -/

/-- Looking for a frozen buffer changes nothing. -/
theorem Recovers.nothing {e : LSMStorageEngine Wal} {dead : List LogRecord} {q : BufferQueue LogRecord}
    (h : Recovers e .idle dead q) : Recovers e .returned dead q :=
  ⟨h.fills, h.holds, trivial, h.floor, h.readable, trivial, h.saved, h.answers, h.bounded, h.once⟩

/-- An exception leaves the log as it is, unless it leaves a table unsaved. -/
theorem Recovers.raise {e : LSMStorageEngine Wal} {pc : FlushPc} {dead : List LogRecord} {q : BufferQueue LogRecord}
    (h : Recovers e pc dead q) (hpc : ¬pc.Unsaved) (err : Error) : Recovers e (.raised err) dead q.cut := by
  have hsaved : e.tables.reload.manifest.levels = e.tables.manifest.levels := by
    have hsaved := h.saved
    cases pc with
    | added walOffset => exact absurd trivial hpc
    | idle | collected items | writing items walOffset | written sstable walOffset | described metadata walOffset
    | saved walOffset | recorded walOffset | cleared walOffset | returned | raised err => exact hsaved
  refine ⟨h.fills.cut, h.holds, trivial, rfl, h.readable, trivial, hsaved, h.answers,
    fun hs => ⟨boundary_zero _, (h.bounded hs).2⟩, fun hfile => ?_⟩
  exact List.pairwise_cons.mpr ⟨fun b _ hne => absurd rfl hne, (List.pairwise_cons.mp (h.once hfile)).2⟩

/-- Tables that a new engine reads alike are as good. -/
theorem Recovers.withTables {e : LSMStorageEngine Wal} {pc : FlushPc} {dead : List LogRecord}
    {q : BufferQueue LogRecord} (h : Recovers e pc dead q) {t : Tables} (hreadable : t.Readable)
    (hflush : FlushInv e.memtable t pc) (hsaved : SavedInv e.memtable t pc)
    (hlayer : t.reload.layer = e.tables.reload.layer) : Recovers (e.withTables t) pc dead q := by
  refine ⟨h.fills, h.holds, h.head, h.floor, hreadable, hflush, hsaved, ?_, h.bounded, h.once⟩
  intro k v hk hdead
  show t.reload.layer k = some v
  rw [hlayer]
  exact h.answers k v hk hdead

/-- **Every step of a flush** keeps the session. -/
theorem session_flush {c : Config Wal} {m : Contents} (h : Session c m) {nowMs : Nat}
    (hok : c.FlushOk (.flush nowMs)) (hcut : CutOk c.engine c.flush) : Session (c.act (.flush nowMs)) m := by
  suffices hrest : (∃ dead q, Recovers (c.act (.flush nowMs)).completed (c.act (.flush nowMs)).flush dead q) ∧
      ((c.act (.flush nowMs)).writers = c.writers) ∧
      Tables.Distinct (c.act (.flush nowMs)).engine.tables ∧
      Tables.Distinct (c.act (.flush nowMs)).engine.tables.reload by
    obtain ⟨hrecovers, hwriters, hdistinct⟩ := hrest
    exact h.quiet (Config.act_step h.inv hok) hrecovers (by rw [hwriters]; exact h.paired) hdistinct
  obtain ⟨dead, q, hrecovers⟩ := h.recovers
  rw [Config.act]
  split
  · next hpc =>
    rw [hpc] at hrecovers
    exact ⟨⟨dead, q, hrecovers.ended (.inl rfl)⟩, rfl, h.distinct⟩
  · next err hpc =>
    rw [hpc] at hrecovers
    exact ⟨⟨dead, q, hrecovers.ended (.inr ⟨err, rfl⟩)⟩, rfl, h.distinct⟩
  · refine ⟨?_, rfl, distinct_flushNext h.inv.flush h.distinct nowMs⟩
    have hcut' : ∀ walOffset, c.flush = .cleared walOffset → walOffset ≠ 0 → c.completed.wal.Synced := by
      intro walOffset hpc
      rw [hpc] at hcut
      exact hcut
    rcases flushNext_landed h.inv.flush (c.writers 0) nowMs with hnext | ⟨hpc, hnext⟩
    · have hrecovered := recovers_flushStep ⟨dead, q, hrecovers⟩ hok hcut'
      rw [Config.completed, hnext] at hrecovered
      exact hrecovered
    -- the buffer that the write under way freezes is not there yet
    · rw [hpc] at hrecovers
      rw [hnext]
      exact ⟨dead, q, hrecovers.nothing⟩

/-- **An exception** that ends a flush keeps the session. -/
theorem session_raise {c : Config Wal} {m : Contents} (h : Session c m) {nowMs : Nat} {content : Option Bytes}
    (hok : c.FlushOk (.raise nowMs content)) (hpc : ¬c.flush.Unsaved) :
    Session (c.act (.raise nowMs content)) m := by
  obtain ⟨dead, q, hrecovers⟩ := h.recovers
  suffices hrest : (∃ dead q, Recovers (c.act (.raise nowMs content)).completed (c.act (.raise nowMs content)).flush
      dead q) ∧ (c.act (.raise nowMs content)).writers = c.writers ∧
      (c.act (.raise nowMs content)).engine.tables.manifest = c.engine.tables.manifest by
    obtain ⟨hrecovers, hwriters, hmanifest⟩ := hrest
    refine h.quiet (Config.act_step h.inv hok) hrecovers (by rw [hwriters]; exact h.paired) ?_
    rw [Tables.Distinct, Tables.Distinct, Tables.reload, hmanifest]
    exact h.distinct
  rw [Config.FlushOk] at hok
  rw [Config.act]
  cases hflush : c.flush with
  | idle | returned | raised err => exact ⟨⟨dead, q, hrecovers⟩, rfl, rfl⟩
  | writing items walOffset =>
    -- no listed table reads the file, in memory or after a restart
    rw [hflush] at hok
    have hraised := hrecovers.raise hpc .osError
    let t := c.engine.tables.setFile (sstablePath c.engine.storagePath nowMs) content
    have hlevels : t.reload.manifest.levels = t.manifest.levels := hraised.saved
    have hbefore : c.engine.tables.reload.layer = c.engine.tables.layer :=
      (layer_of_levels c.engine.tables c.engine.tables.reload rfl hraised.saved).1
    have hafter : t.reload.layer = t.layer := (layer_of_levels t t.reload rfl hlevels).1
    have hlayer : t.reload.layer = c.engine.tables.reload.layer := by
      rw [hafter, hbefore]
      exact Tables.layer_setFile hok content
    exact ⟨⟨dead, _, hraised.withTables (Tables.readable_setFile h.inv.readable hok content) trivial hlevels hlayer⟩,
      rfl, rfl⟩
  | collected items | written sstable walOffset | described metadata walOffset | added walOffset | saved walOffset
  | recorded walOffset | cleared walOffset =>
    exact ⟨⟨dead, _, hrecovers.raise hpc _⟩, rfl, rfl⟩

/-! ## Compactions -/

omit [Zlib] in
/-- A compaction that stops with the file in order: the next engine finds tables that are read
as before. -/
theorem settled_compactSteps {e : LSMStorageEngine Wal} (h : Sound e)
    (hsaved : e.tables.reload.manifest.levels = e.tables.manifest.levels) {nowNs createdMs : Nat}
    (hclock : ClockOk e (.compact nowNs createdMs)) {s : Tables × CompactionManager.CompactPc}
    (hsteps : CompactionManager.Steps e.storagePath nowNs createdMs (e.tables, .idle) s)
    (htorn : ¬CompactionManager.Torn s.2) : CompactionManager.Settled e.tables s.1.reload := by
  have hself : CompactionManager.Settled e.tables e.tables.reload :=
    CompactionManager.Settled.congr ⟨h.readable, h.distinct, rfl, fun m hm => hm⟩ hsaved rfl
  by_cases hnil : e.tables.manifest.getLevelSstables 0 = []
  · have hempty : levelOrder e.tables.manifest 0 = [] := by rw [levelOrder, hnil]; rfl
    rcases CompactionManager.steps_of_nothing hempty hsteps with rfl | rfl <;> exact hself
  · have htarget := target_compact e nowNs createdMs hnil
    have hfresh := hclock.1 _ htarget
    have hnewer := hclock.2 (by rw [htarget]; exact Option.some_ne_none _) createdMs rfl
    rcases CompactionManager.pcInv_steps h.readable hfresh hsteps with rfl | ⟨-, hpc⟩
    · exact hself
    · have hdisk := CompactionManager.onDisk_steps h.readable hfresh hsaved hsteps
      exact CompactionManager.settled_reload hdisk hpc h.readable hfresh h.distinct hnewer htorn

omit [Zlib] in
/-- What is saved is what is in memory, once a compaction has ended. -/
theorem levels_compact {e : LSMStorageEngine Wal} (h : Sound e)
    (hsaved : e.tables.reload.manifest.levels = e.tables.manifest.levels) {nowNs createdMs : Nat}
    (hname : NameOk e (.compact nowNs createdMs)) :
    (CompactionManager.compact e.storagePath nowNs createdMs e.tables).reload.manifest.levels =
      (CompactionManager.compact e.storagePath nowNs createdMs e.tables).manifest.levels := by
  by_cases hnil : e.tables.manifest.getLevelSstables 0 = []
  · rwa [compact_of_nothing hnil]
  · have hfresh := hname _ (target_compact e nowNs createdMs hnil)
    obtain ⟨pc, hpc, hsteps⟩ := CompactionManager.compact_reached e.storagePath nowNs createdMs e.tables
    have hdisk := CompactionManager.onDisk_steps h.readable hfresh hsaved hsteps
    rcases hpc with rfl | ⟨err, rfl⟩ <;> exact hdisk

omit [Zlib] in
/-- A compaction that ends leaves tables that are read as before. -/
theorem layer_compacted_run {e : LSMStorageEngine Wal} (h : Sound e)
    (hsaved : e.tables.reload.manifest.levels = e.tables.manifest.levels) {nowNs createdMs : Nat}
    (hclock : ClockOk e (.compact nowNs createdMs)) :
    (CompactionManager.compact e.storagePath nowNs createdMs e.tables).layer = e.tables.layer := by
  obtain ⟨pc, hpc, hsteps⟩ := CompactionManager.compact_reached e.storagePath nowNs createdMs e.tables
  have htorn : ¬CompactionManager.Torn pc := by
    rcases hpc with rfl | ⟨err, rfl⟩ <;> exact id
  let t := CompactionManager.compact e.storagePath nowNs createdMs e.tables
  have hlevels : t.reload.manifest.levels = t.manifest.levels := levels_compact h hsaved hclock.1
  rw [← (settled_compactSteps h hsaved hclock hsteps htorn).layer]
  exact (layer_of_levels t t.reload rfl hlevels).1.symm

/-- **A whole compaction** keeps the session. -/
theorem session_compact {c : Config Wal} {m : Contents} (h : Session c m) {nowNs createdMs : Nat}
    (hidle : c.flush = .idle) (hclock : ClockOk c.engine (.compact nowNs createdMs)) :
    Session { c with engine := ((Op.compact nowNs createdMs).run c.engine).1 } m := by
  obtain ⟨dead, q, hrecovers⟩ := h.recovers
  rw [hidle] at hrecovers
  have hsaved : c.engine.tables.reload.manifest.levels = c.engine.tables.manifest.levels := hrecovers.saved
  let t := CompactionManager.compact c.engine.storagePath nowNs createdMs c.engine.tables
  have hsound : Sound (c.engine.withTables t) := (sound_run h.sound hclock.1).1
  have hlevels : t.reload.manifest.levels = t.manifest.levels := levels_compact h.sound hsaved hclock.1
  have hlayer : t.layer = c.engine.tables.layer := layer_compacted_run h.sound hsaved hclock
  have hreload : t.reload.layer = c.engine.tables.reload.layer := by
    rw [(layer_of_levels t t.reload rfl hlevels).1, hlayer,
      (layer_of_levels c.engine.tables c.engine.tables.reload rfl hsaved).1]
  refine ⟨⟨dead, q, ?_⟩, h.paired, ⟨hsound.readable, ?_⟩, ⟨hsound.distinct, distinct_reload hlevels hsound.distinct⟩,
    fun key => ?_⟩
  · show Recovers (c.completed.withTables t) c.flush dead q
    rw [hidle]
    exact hrecovers.withTables hsound.readable trivial hlevels hreload
  · show FlushInv c.engine.memtable t c.flush
    rw [hidle]
    trivial
  · show Reading.live (above c.engine.memtable.layer t.layer key) = m key
    rw [hlayer]
    exact h.live key

/-! ## One event -/

/-- The beginning of a call. -/
theorem session_begin {c : Config Wal} {m : Contents} (h : Session c m) {a : Action}
    (ha : c.act a = if c.writers 0 = .idle then c.wrote 0 (Config.begin c.engine a) else c)
    (hpaired : (Config.begin c.engine a).2.Paired)
    (hrecovers : c.writers 0 = .idle → (∃ dead q, Recovers c.engine c.flush dead q) →
      ∃ dead q, Recovers (c.act a).completed c.flush dead q) : Session (c.act a) m := by
  have hstepped := Config.stepped_begin h.inv a 0
  rw [← ha] at hstepped
  by_cases hidle : c.writers 0 = .idle
  · have hbefore := h.recovers
    rw [completed_of_idle hidle] at hbefore
    have hafter := hrecovers hidle hbefore
    rw [if_pos hidle] at ha
    obtain ⟨wal, heq⟩ := Config.begin_same c.engine a
    rw [ha] at hstepped hafter ⊢
    refine h.quiet hstepped hafter (by rwa [Config.writers_wrote]) ?_
    rw [Config.engine_wrote, heq]
    exact h.distinct
  · rw [if_neg hidle] at ha
    rw [ha]
    exact h

/-- **Every step of the writer** keeps the session. -/
theorem session_write {c : Config Wal} {m : Contents} (h : Session c m) (hok : AppendOk c.engine (c.writers 0)) :
    Session (c.act (.write 0)) ((c.writers 0).effect m) := by
  have hact : c.act (.write 0) = c.wrote 0 (Config.writeNext c.engine (c.writers 0)) := rfl
  have hrecovers := recovers_write h.recovers h.paired hok
  have hinv := (Config.stepped_write h.inv 0).inv
  obtain ⟨htables, hview⟩ := view_writeNext c.engine (c.writers 0)
  rw [hact] at hrecovers hinv ⊢
  refine ⟨hrecovers, ?_, hinv, ?_, fun key => ?_⟩
  · rw [Config.writers_wrote]
    exact h.paired.writeNext
  · rw [Config.engine_wrote, htables]
    exact h.distinct
  · rw [Config.engine_wrote, view, htables, hview]
    exact live_landed h.live (c.writers 0) key

theorem session_act {c : Config Wal} {m : Contents} (h : Session c m) {a : Action} (hok : (Event.act a).Ok c) :
    Session (c.act a) (Event.effect c m (.act a)) := by
  cases a with
  | flush nowMs => exact session_flush h hok.1 hok.2
  | raise nowMs content => exact session_raise h hok.1 hok.2
  | write writer =>
    obtain ⟨rfl, happend⟩ := hok
    exact session_write h happend
  | put writer key value =>
    obtain ⟨rfl, hlog⟩ := hok
    refine session_begin h rfl ?_ fun hidle hbefore => ?_
    · rw [Config.begin]
      rcases Log.append c.engine.wal OperationType.put key value with ⟨wal, err | offset⟩ <;> trivial
    · obtain ⟨dead, q, hbefore⟩ := hbefore
      rw [completed_put hidle]
      exact ⟨dead, recovers_put hbefore hlog⟩
  | delete writer key =>
    obtain ⟨rfl, hlog⟩ := hok
    refine session_begin h rfl ?_ fun hidle hbefore => ?_
    · rw [Config.begin]
      rcases Log.append c.engine.wal OperationType.delete key [] with ⟨wal, err | offset⟩ <;> trivial
    · obtain ⟨dead, q, hbefore⟩ := hbefore
      rw [completed_delete hidle]
      exact ⟨dead, recovers_delete hbefore hlog⟩
  | batchPut writer keys values =>
    obtain rfl : writer = 0 := hok
    refine session_begin h rfl ?_ fun hidle hbefore => ?_
    · rw [Config.begin]
      split
      · trivial
      · next hlen => exact not_not.mp hlen
    · rw [Config.act, if_pos hidle, Config.completed, Config.engine_wrote, Config.writers_wrote, Config.begin]
      split <;> exact hbefore
  | rotate =>
    have hidle : c.writers 0 = .idle := hok
    obtain ⟨dead, q, hbefore⟩ := h.recovers
    rw [completed_of_idle hidle] at hbefore
    have hstill : (c.act .rotate).writers 0 = .idle := hidle
    have hafter : Recovers (c.act .rotate).completed c.flush dead q.freeze := by
      rw [completed_of_idle hstill]
      exact recovers_rotate hbefore
    exact h.quiet (Config.act_step h.inv trivial) ⟨dead, _, hafter⟩ h.paired h.distinct

/-- The engine stops, and the next one finds tables that are read as before. -/
theorem session_crash {c : Config Wal} {m : Contents} {pc : FlushPc} {t : Tables}
    (h : ∃ dead q, Recovers (c.completed.withTables t) pc dead q)
    (hdistinct : Tables.Distinct t ∧ Tables.Distinct t.reload)
    (hlive : ∀ key, Reading.live (Reading.view c.engine.memtable t key) = m key) :
    ∃ e, restart (c.engine.withTables t) = .ok e ∧ Session (.start e) ((c.writers 0).effect m) :=
  session_restart (e := c.completed.withTables t) h hdistinct (live_landed hlive (c.writers 0))

/-- **Every event that goes well** starts an engine, if it stops one, and keeps the session. -/
theorem session_step {c : Config Wal} {m : Contents} (h : Session c m) {event : Event} (hok : event.Ok c) :
    event.run c = .ok (step c event) ∧ Session (step c event) (event.effect c m) := by
  have hstarts : ∀ c', event.run c = .ok c' → Session c' (event.effect c m) →
      event.run c = .ok (step c event) ∧ Session (step c event) (event.effect c m) := by
    intro c' hrun hsession
    have hstep : step c event = c' := by rw [step, hrun]
    rw [hstep]
    exact ⟨hrun, hsession⟩
  cases event with
  | act a => exact hstarts _ rfl (session_act h hok)
  | compact nowNs createdMs =>
    obtain ⟨hidle, hclock⟩ := hok
    exact hstarts _ rfl (session_compact h (FlushPc.eq_of_idle hidle) hclock)
  | crash =>
    obtain ⟨e, hrun, hsession⟩ := session_crash (t := c.engine.tables) h.recovers h.distinct h.live
    exact hstarts _ (congrArg (Except.map Config.start) hrun) hsession
  | crashCompacting nowNs createdMs steps =>
    obtain ⟨hidle, hclock, htorn⟩ := hok
    obtain ⟨dead, q, hrecovers⟩ := h.recovers
    rw [FlushPc.eq_of_idle hidle] at hrecovers
    let t := (compactSteps nowNs createdMs steps c.engine).1
    have hsettled : CompactionManager.Settled c.engine.tables t.reload :=
      settled_compactSteps h.sound hrecovers.saved hclock
        (CompactionManager.steps_iterate c.engine.storagePath nowNs createdMs _ steps) htorn
    have hlevels : t.reload.reload.manifest.levels = t.reload.manifest.levels := by rw [Tables.reload_reload]
    have hlayer : t.reload.reload.layer = c.engine.tables.reload.layer := by
      rw [Tables.reload_reload, hsettled.layer,
        (layer_of_levels c.engine.tables c.engine.tables.reload rfl hrecovers.saved).1]
    have hnext := hrecovers.withTables hsettled.readable trivial hlevels hlayer
    have hlive : ∀ key, Reading.live (Reading.view c.engine.memtable t.reload key) = m key := by
      intro key
      rw [Reading.view, hsettled.layer]
      exact h.live key
    obtain ⟨e, hrun, hsession⟩ := session_crash ⟨dead, q, hnext⟩
      ⟨hsettled.distinct, distinct_reload hlevels hsettled.distinct⟩ hlive
    have hsame : restart (c.engine.withTables t) = restart (c.engine.withTables t.reload) := by
      rw [restart, restart, init, init, withTables, withTables, Tables.reload_reload]
    exact hstarts _ (congrArg (Except.map Config.start) (hsame.trans hrun)) hsession

/-! ## All sessions -/

theorem session_run {c : Config Wal} {m : Contents} (h : Session c m) {events : List Event}
    (hok : Runs.Along step (fun c event => event.Ok c) c events) :
    Runs.Along step (fun c event => event.run c = .ok (step c event)) c events ∧
      Session (Runs.run step c events) (contents c m events) := by
  induction events generalizing c m with
  | nil => exact ⟨trivial, h⟩
  | cons event events ih =>
    obtain ⟨hrun, hnext⟩ := session_step h hok.1
    obtain ⟨hruns, hend⟩ := ih hnext hok.2
    exact ⟨⟨hrun, hruns⟩, hend⟩

/-- **Sessions after sessions lose nothing.** An engine is started in a directory with a whole log
and readable tables. If every event that follows goes well, every new engine starts, and in the
end all reads are those of the map that the writes of all sessions make. -/
theorem sessions_hold {storagePath : Path} {memtableMaxSize : Int} {disk : NamedFile} {t : Tables}
    {rs : List LogRecord} (hdisk : disk.content.getD [] = encodeLog rs) (hfits : ∀ r ∈ rs, r.Fits)
    (hreadable : t.reload.Readable) (hdistinct : Tables.Distinct t.reload) {m : Contents}
    (hm : (started storagePath memtableMaxSize disk t rs).Holds m) {events : List Event}
    (hok : Runs.Along step (fun c event => event.Ok c) (.start (started storagePath memtableMaxSize disk t rs)) events) :
    Runs.Along step (fun c event => event.run c = .ok (step c event))
        (.start (started storagePath memtableMaxSize disk t rs)) events ∧
      (Runs.run step (.start (started storagePath memtableMaxSize disk t rs)) events).engine.Holds
        (contents (.start (started storagePath memtableMaxSize disk t rs)) m events) := by
  obtain ⟨hruns, hend⟩ := session_run (session_started hdisk hfits hreadable hdistinct hm.get) hok
  exact ⟨hruns, holds_of_live hend.sound hend.live⟩

instance (e : LSMStorageEngine Wal) (op : Op) : Decidable (ClockOk e op) :=
  inferInstanceAs (Decidable ((∀ path ∈ op.target e, ¬e.tables.Listed path) ∧
    (op.target e ≠ none → ∀ nowMs ∈ op.createdMs, CompactionManager.Newer e.tables nowMs)))

instance (e : LSMStorageEngine Wal) : (pc : WriterPc) → Decidable (AppendOk e pc)
  | .batchSizing _ _ [] _ => inferInstanceAs (Decidable (_ → _ → _))
  | .batchSizing _ _ (_ :: _) _ | .idle | .putLogged _ _ _ | .deleteLogged _ _ | .deleteApplied _ _
  | .batchLogged _ _ _ => .isTrue trivial

instance (e : LSMStorageEngine Wal) : (pc : FlushPc) → Decidable (CutOk e pc)
  | .cleared _ => inferInstanceAs (Decidable (_ → _))
  | .idle | .collected _ | .writing _ _ | .written _ _ | .described _ _ | .added _ | .saved _ | .recorded _ | .returned
  | .raised _ => .isTrue trivial

instance (c : Config Wal) : (event : Event) → Decidable (event.Ok c)
  | .act (.put _ _ _) | .act (.delete _ _) => inferInstanceAs (Decidable (_ = _ ∧ LogOk _ _))
  | .act (.batchPut _ _ _) => inferInstanceAs (Decidable (_ = _))
  | .act (.write _) => inferInstanceAs (Decidable (_ = _ ∧ AppendOk _ _))
  | .act .rotate => inferInstanceAs (Decidable (_ = _))
  | .act (.flush nowMs) => inferInstanceAs (Decidable (c.FlushOk (.flush nowMs) ∧ CutOk _ _))
  | .act (.raise nowMs content) => inferInstanceAs (Decidable (c.FlushOk (.raise nowMs content) ∧ ¬c.flush.Unsaved))
  | .compact nowNs createdMs => inferInstanceAs (Decidable (c.flush.Idle ∧ ClockOk c.engine (.compact nowNs createdMs)))
  | .crash => .isTrue trivial
  | .crashCompacting nowNs createdMs steps => inferInstanceAs (Decidable (c.flush.Idle ∧
      ClockOk c.engine (.compact nowNs createdMs) ∧
        ¬CompactionManager.Torn (compactSteps nowNs createdMs steps c.engine).2))

end Sessions

/-- A crash with a put logged and a table written but not listed; a flush that raises; a deletion
and a batch in front of a flush that cuts the log; a crash within a compaction that has saved
its table; a whole compaction; and a crash. -/
def threeCrashes : List Event :=
  [.act (.put 0 [97] [49]), .act (.write 0), .act .rotate, .act (.flush 1), .act (.flush 1), .act (.flush 1),
    .act (.put 0 [98] [50]), .act (.flush 2), .crash,
    .act (.put 0 [99] [51]), .act (.write 0), .act .rotate, .act (.flush 3), .act (.flush 3), .act (.flush 3),
    .act (.raise 3 none), .act (.flush 3), .act (.delete 0 [98]), .act (.write 0), .act (.write 0),
    .act (.batchPut 0 [[97], [100]] [[52], [53]]), .act (.write 0), .act (.write 0), .act (.write 0), .act (.write 0),
    .act (.flush 4), .act (.flush 4), .act (.flush 4), .act (.flush 5), .act (.flush 5), .act (.flush 5),
    .act (.flush 5), .act (.flush 5), .act (.flush 5), .act (.flush 5),
    .crashCompacting 6 7 5, .act (.put 0 [101] [54]), .act (.write 0), .compact 8 9, .crash]

/-- All engines start. The last one reads what the batch wrote, what a flush that raised had
not lost and what was put before the last crash, and nothing of what was deleted. -/
theorem sessions_hold_threeCrashes :
    Runs.Along step (fun c event => event.run c = .ok (step c event)) (.start (started "db" 1000 .absent .fresh []))
        threeCrashes ∧
      let e := (Runs.run step (.start (started "db" 1000 .absent .fresh [])) threeCrashes).engine
      e.get [97] = .ok [52] ∧ e.get [98] = .error (.keyError [98]) ∧ e.get [99] = .ok [51] ∧
        e.get [101] = .ok [54] ∧
        ∃ items, e.readKeyRange [97] [99] = .ok items ∧ ([97], [52]) ∈ items ∧ ([98], [50]) ∉ items := by
  have hsound : Sound (started "db" 1000 .absent .fresh []) := ⟨(sound_fresh "db" 1000).readable, List.nodup_nil⟩
  have hok : Runs.Along step (fun c event => event.Ok c) (.start (started "db" 1000 .absent .fresh []))
      threeCrashes := by decide +kernel
  obtain ⟨hruns, hholds⟩ := sessions_hold rfl (List.forall_mem_nil _) (sound_fresh "db" 1000).readable List.nodup_nil
    (holds_of_live hsound fun _ => rfl) hok
  obtain ⟨items, hread, -, hitems⟩ := hholds.readKeyRange [97] [99]
  refine ⟨hruns, (hholds.get [97]).trans (by decide +kernel), (hholds.get [98]).trans (by decide +kernel),
    (hholds.get [99]).trans (by decide +kernel), (hholds.get [101]).trans (by decide +kernel), items, hread,
    (hitems [97] [52]).mpr (by decide +kernel), fun hmem => ?_⟩
  have hdeleted := ((hitems [98] [50]).mp hmem).2.2
  revert hdeleted
  decide +kernel

end LSMStorageEngine

end Logvine
