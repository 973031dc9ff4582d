import Logvine.Storage.EngineRun
import Logvine.Storage.ReadingSteps
import Logvine.Storage.Threads

/-!
# Reads beside writers and flushes

A lookup looks into the memtable and, later, into the tables; a range read scans the
memtable, later looks at the manifest, and opens the listed files one after the other.
In between other threads go on.

- `flushOk_of_readings`: with distinct names and an advancing clock every flush finds an
  unused name and a later time;
- `get_linearizes`: a lookup returns what was current at some moment from its first
  step to its last;
- `batch_atomic_iff`: when a range read shows a part of a batch.

`get` looks into the memtable under its lock and asks the tables afterwards (`engine.py`,
182–185), `read_key_range` likewise (213–224); no lock spans both. What a reader misses in
the memtable has been flushed into a table that it then sees, because a flush lists the
table before it drops the buffer (309–313).
-/

namespace Logvine

open Layer SSTableManager

namespace LSMStorageEngine

namespace Config

section Readings

variable {L : Type} [Log L]

/-- The reading of the clock a flush names its file by. -/
def nameReading (c : Config L) : Action → List Nat
  | .flush nowMs | .raise nowMs _ =>
    match c.flush with
    | .writing _ _ => [nowMs]
    | _ => []
  | _ => []

/-- The reading of the clock a flush records for its table. -/
def createdReading (c : Config L) : Action → List Nat
  | .flush nowMs =>
    match c.flush with
    | .written _ _ => [nowMs]
    | _ => []
  | _ => []

/-- The names of the files written in a run are distinct, and unused at its start; the
readings recorded increase, and are later than what was recorded before. -/
structure Clocked (c : Config L) (actions : List Action) : Prop where
  distinct : (Runs.collect act nameReading c actions).Nodup
  unused : ∀ nowMs ∈ Runs.collect act nameReading c actions,
    ¬c.engine.tables.Listed (sstablePath c.engine.storagePath nowMs)
  increasing : (Runs.collect act createdReading c actions).Pairwise (· < ·)
  later : ∀ nowMs ∈ Runs.collect act createdReading c actions, CompactionManager.Newer c.engine.tables nowMs

/-- Of the tables a manifest lists, those of `t` aside, and of the one a flush is about
to list, the names and times are among these readings. -/
structure Dated (t : Tables) (names created : List Nat) (c : Config L) : Prop where
  listed : ∀ m ∈ readOrder c.engine.tables.manifest, m ∈ readOrder t.manifest ∨
    (∃ nowMs ∈ names, m.path = sstablePath c.engine.storagePath nowMs) ∧
      ∃ nowMs ∈ created, m.createdAtMs = some nowMs
  written : ∀ sstable walOffset, c.flush = .written sstable walOffset →
    ∃ nowMs ∈ names, sstable.path = sstablePath c.engine.storagePath nowMs
  described : ∀ m walOffset, c.flush = .described m walOffset →
    (∃ nowMs ∈ names, m.path = sstablePath c.engine.storagePath nowMs) ∧
      ∃ nowMs ∈ created, m.createdAtMs = some nowMs

omit [Log L] in
theorem dated_start {c : Config L} (h : c.flush = .idle) : Dated c.engine.tables [] [] c := by
  refine ⟨fun _ hm => .inl hm, ?_, ?_⟩
  · intro sstable walOffset heq
    rw [h] at heq
    cases heq
  · intro m walOffset heq
    rw [h] at heq
    cases heq

/-- A flush that holds no table. -/
def HoldsNoTable : FlushPc → Prop
  | .written _ _ | .described _ _ => False
  | _ => True

omit [Log L] in
/-- Steps that leave the manifest alone and describe no table. -/
theorem Dated.same {t : Tables} {names created : List Nat} {c c' : Config L} (h : Dated t names created c)
    (hpath : c'.engine.storagePath = c.engine.storagePath)
    (hlisted : readOrder c'.engine.tables.manifest = readOrder c.engine.tables.manifest)
    (hflush : c'.flush = c.flush ∨ HoldsNoTable c'.flush) : Dated t names created c' := by
  refine ⟨?_, ?_, ?_⟩
  · rw [hlisted, hpath]
    exact h.listed
  · intro sstable walOffset heq
    rcases hflush with hsame | hnone
    · rw [hpath]
      exact h.written sstable walOffset (hsame ▸ heq)
    · rw [heq] at hnone
      exact hnone.elim
  · intro m walOffset heq
    rcases hflush with hsame | hnone
    · rw [hpath]
      exact h.described m walOffset (hsame ▸ heq)
    · rw [heq] at hnone
      exact hnone.elim

omit [Log L] in
theorem Dated.more {t : Tables} {names created : List Nat} {c : Config L} (h : Dated t names created c)
    (moreNames moreCreated : List Nat) : Dated t (names ++ moreNames) (created ++ moreCreated) c := by
  have hpath : ∀ {path : Path}, (∃ nowMs ∈ names, path = sstablePath c.engine.storagePath nowMs) →
      ∃ nowMs ∈ names ++ moreNames, path = sstablePath c.engine.storagePath nowMs :=
    fun ⟨nowMs, hmem, heq⟩ => ⟨nowMs, List.mem_append_left _ hmem, heq⟩
  have hcreated : ∀ {m : SSTableMeta}, (∃ nowMs ∈ created, m.createdAtMs = some nowMs) →
      ∃ nowMs ∈ created ++ moreCreated, m.createdAtMs = some nowMs :=
    fun ⟨nowMs, hmem, heq⟩ => ⟨nowMs, List.mem_append_left _ hmem, heq⟩
  exact ⟨fun m hm => (h.listed m hm).imp_right fun hm => ⟨hpath hm.1, hcreated hm.2⟩,
    fun sstable walOffset heq => hpath (h.written sstable walOffset heq),
    fun m walOffset heq => ⟨hpath (h.described m walOffset heq).1, hcreated (h.described m walOffset heq).2⟩⟩

/-- **Every action** keeps track of the readings taken. -/
theorem dated_step {t : Tables} {names created : List Nat} {c : Config L} (h : Dated t names created c)
    (hinv : Inv c) (a : Action) :
    Dated t (names ++ nameReading c a) (created ++ createdReading c a) (act c a) := by
  have hkept := h.more (nameReading c a) (createdReading c a)
  cases a with
  | put writer key value | delete writer key | batchPut writer keys values =>
    rw [act]
    split
    · refine hkept.same ?_ ?_ (.inl rfl)
      all_goals
        obtain ⟨wal, heq⟩ := begin_same c.engine _
        rw [engine_wrote, heq]
    · exact hkept
  | write writer =>
    obtain ⟨memtable, wal, heq⟩ := writeNext_same c.engine (c.writers writer)
    refine hkept.same ?_ ?_ (.inl rfl)
    all_goals rw [act, engine_wrote, heq]
  | rotate => exact hkept.same rfl rfl (.inl rfl)
  | raise nowMs content =>
    rw [act]
    cases hpc : c.flush with
    | idle | returned | raised err => exact hkept
    | writing items walOffset => exact hkept.same rfl rfl (.inr trivial)
    | collected | written | described | added | saved | recorded | cleared =>
      exact hkept.same rfl rfl (.inr trivial)
  | flush nowMs =>
    have hflush := hinv.flush
    rw [act]
    cases hpc : c.flush with
    | returned | raised err => exact hkept.same rfl rfl (.inr trivial)
    | idle =>
      dsimp only
      rw [flushNext]
      split <;> exact hkept.same rfl rfl (.inr trivial)
    | collected | added | saved | recorded | cleared => exact hkept.same rfl rfl (.inr trivial)
    | writing items walOffset =>
      have hnow : nowMs ∈ names ++ nameReading c (.flush nowMs) := by
        rw [nameReading, hpc]
        exact List.mem_append_right _ (List.mem_singleton_self nowMs)
      have hmanifest := Tables.manifest_write c.engine.tables (.init (sstablePath c.engine.storagePath nowMs) 0) items
      have hasc : Ascending items := by
        rw [hpc] at hflush
        obtain ⟨-, frozen, -, -, rfl⟩ := hflush
        exact frozen.sortedItems_ascending
      dsimp only
      rw [flushNext]
      rcases hwrite : c.engine.tables.write (.init (sstablePath c.engine.storagePath nowMs) 0) items with
        ⟨t', err | sstable⟩ <;> rw [hwrite] at hmanifest
      · exact hkept.same rfl (congrArg readOrder hmanifest) (.inr trivial)
      · refine ⟨?_, ?_, by rintro _ _ ⟨⟩⟩
        · rw [show readOrder t'.manifest = _ from congrArg readOrder hmanifest]
          exact hkept.listed
        · rintro _ _ ⟨rfl, -⟩
          exact ⟨nowMs, hnow, (Tables.write_ok hasc hwrite).2.1⟩
    | written sstable walOffset =>
      rw [hpc] at hflush
      obtain ⟨items, hne, -, hholds, hindex, -⟩ := hflush
      obtain ⟨m, hbuild, -, hpath, -, hcreated⟩ := lists_buildMetadata hholds hindex hne 0 nowMs
      have hnow : nowMs ∈ created ++ createdReading c (.flush nowMs) := by
        rw [createdReading, hpc]
        exact List.mem_append_right _ (List.mem_singleton_self nowMs)
      dsimp only
      rw [flushNext, Tables.buildMetadata, hbuild]
      refine ⟨hkept.listed, by rintro _ _ ⟨⟩, ?_⟩
      rintro _ _ ⟨rfl, -⟩
      exact ⟨hpath ▸ hkept.written sstable walOffset hpc, nowMs, hnow, hcreated⟩
    -- the one table that is listed now was described before, and its readings with it
    | described metadata walOffset =>
      refine ⟨?_, by rintro _ _ ⟨⟩, by rintro _ _ ⟨⟩⟩
      intro m hm
      rcases mem_readOrder_addEntry.mp hm with rfl | hm
      · exact .inr (hkept.described m walOffset hpc)
      · exact hkept.listed m hm

omit [Log L] in
/-- New readings make a step go well. -/
theorem flushOk_of_dated {t : Tables} {names created : List Nat} {c : Config L} (h : Dated t names created c)
    {a : Action} (hnames : ∀ nowMs ∈ nameReading c a,
      nowMs ∉ names ∧ ¬t.Listed (sstablePath c.engine.storagePath nowMs))
    (hcreated : ∀ nowMs ∈ createdReading c a, (∀ ms ∈ created, ms < nowMs) ∧ CompactionManager.Newer t nowMs) :
    FlushOk c a := by
  have hfree : ∀ nowMs ∈ nameReading c a,
      ¬c.engine.tables.Listed (sstablePath c.engine.storagePath nowMs) := by
    rintro nowMs hnow ⟨m, hm, heq⟩
    obtain ⟨hnew, hunused⟩ := hnames nowMs hnow
    rcases h.listed m hm with hold | ⟨⟨ms, hms, hpath⟩, -⟩
    · exact hunused ⟨m, hold, heq⟩
    · exact hnew (Tables.sstablePath_inj (hpath.symm.trans heq) ▸ hms)
  cases a with
  | put writer key value | delete writer key | batchPut writer keys values | write writer | rotate => trivial
  | raise nowMs content =>
    rw [nameReading] at hfree
    rw [FlushOk]
    cases hpc : c.flush with
    | writing items walOffset =>
      rw [hpc] at hfree
      exact hfree nowMs (List.mem_singleton_self nowMs)
    | idle | collected | written | described | added | saved | recorded | cleared | returned | raised => trivial
  | flush nowMs =>
    rw [nameReading] at hfree
    rw [createdReading] at hcreated
    rw [FlushOk]
    cases hpc : c.flush with
    | writing items walOffset =>
      rw [hpc] at hfree
      exact hfree nowMs (List.mem_singleton_self nowMs)
    | written sstable walOffset =>
      rw [hpc] at hcreated
      obtain ⟨hlater, hnewer⟩ := hcreated nowMs (List.mem_singleton_self nowMs)
      intro m hm
      have hmem := mem_readOrder.mpr ⟨0, hm⟩
      refine Prod.Lex.toLex_le_toLex.mpr (.inl ?_)
      rcases h.listed m hmem with hold | ⟨-, ms, hms, heq⟩
      · exact hnewer m hold
      · rw [heq]
        exact hlater ms hms
    | idle | collected | described | added | saved | recorded | cleared | returned | raised => trivial

theorem flushOk_along {t : Tables} {names created : List Nat} {c : Config L} {actions : List Action}
    (hinv : Inv c) (h : Dated t names created c)
    (hdistinct : (names ++ Runs.collect act nameReading c actions).Nodup)
    (hunused : ∀ nowMs ∈ Runs.collect act nameReading c actions,
      ¬t.Listed (sstablePath c.engine.storagePath nowMs))
    (hincreasing : (created ++ Runs.collect act createdReading c actions).Pairwise (· < ·))
    (hlater : ∀ nowMs ∈ Runs.collect act createdReading c actions, CompactionManager.Newer t nowMs) :
    Runs.Along act FlushOk c actions := by
  -- `names` and `created` grow by the readings of each step, none of which comes again
  induction actions generalizing c names created with
  | nil => trivial
  | cons a actions ih =>
    rw [Runs.collect] at hdistinct hunused hincreasing hlater
    have hok : FlushOk c a := by
      refine flushOk_of_dated h (fun nowMs hnow => ⟨?_, ?_⟩) fun nowMs hnow => ⟨?_, ?_⟩
      · intro hmem
        exact (List.nodup_append.mp hdistinct).2.2 nowMs hmem nowMs (List.mem_append_left _ hnow) rfl
      · exact hunused nowMs (List.mem_append_left _ hnow)
      · intro ms hms
        exact (List.pairwise_append.mp hincreasing).2.2 ms hms nowMs (List.mem_append_left _ hnow)
      · exact hlater nowMs (List.mem_append_left _ hnow)
    have hstepped := act_step hinv hok
    refine ⟨hok, ih hstepped.inv (dated_step h hinv a) ?_ ?_ ?_ ?_⟩
    · rwa [List.append_assoc]
    · rw [hstepped.storagePath]
      exact fun nowMs hnow => hunused nowMs (List.mem_append_right _ hnow)
    · rwa [List.append_assoc]
    · exact fun nowMs hnow => hlater nowMs (List.mem_append_right _ hnow)

/-- **With distinct names and an advancing clock** every flush of a run finds an unused
name and a later time. -/
theorem flushOk_of_readings {e : LSMStorageEngine L} (hr : e.tables.Readable) {actions : List Action}
    (h : Clocked (start e) actions) : Runs.Along act FlushOk (start e) actions :=
  flushOk_along (inv_start hr) (dated_start rfl) h.distinct h.unused h.increasing h.later

end Readings

/-! ## Lookups -/

section Lookups

variable {L : Type} [Log L]

/-- The latest applied state of every key: what the writing sections of a run make of `f`. -/
def latest : Config L → Layer Bytes Bytes → List Action → Layer Bytes Bytes
  | _, f, [] => f
  | c, f, a :: actions => latest (act c a) ((c.event a).over f) actions

theorem inv_run {c : Config L} (h : Inv c) {actions : List Action} (hok : Runs.Along act FlushOk c actions) :
    Inv (Runs.run act c actions) := by
  have hstep : ∀ (c : Config L) a, Inv c → FlushOk c a → Inv (act c a) :=
    fun _ _ hinv hok => (act_step hinv hok).inv
  exact Runs.run_invariant hstep h hok

/-- What the engine answers is the latest applied state. -/
theorem view_run {c : Config L} (h : Inv c) {actions : List Action} (hok : Runs.Along act FlushOk c actions) :
    view (Runs.run act c actions).engine = latest c (view c.engine) actions := by
  induction actions generalizing c with
  | nil => rfl
  | cons a actions ih =>
    have hstepped := act_step h hok.1
    have hview : view (act c a).engine = (c.event a).over (view c.engine) := LayeredStore.view_step hstepped.step
    rw [latest, ← hview]
    exact ih hstepped.inv hok.2

/-- The states of a run are a trace of the layered store. -/
theorem trace_run {c : Config L} (h : Inv c) {actions : List Action} (hok : Runs.Along act FlushOk c actions) :
    LayeredStore.Trace (fun n => store (Runs.run act c (actions.take n)).engine.memtable
      (Runs.run act c (actions.take n)).engine.tables) actions.length := by
  intro n hn
  have hstepped := act_step (inv_run h (hok.take n)) (hok.at hn)
  rw [← Runs.run_take_succ act c hn] at hstepped
  exact ⟨_, hstepped.step⟩

/-- **Lookups linearize**: a lookup that looks into the memtable after the actions
`before`, and into the tables after the actions `between` as well, returns the latest
applied state of its key after some of these. -/
theorem get_linearizes (e : LSMStorageEngine L) (hr : e.tables.Readable) (before between : List Action)
    (hclock : Clocked (start e) (before ++ between)) (key : Bytes) :
    ∃ seen, seen <+: between ∧
      Reading.get (Runs.run act (start e) before).engine.memtable
          (Runs.run act (start e) (before ++ between)).engine.tables key =
        Reading.unlessDeleted key (latest (start e) (view e) (before ++ seen) key) := by
  have hok := flushOk_of_readings hr hclock
  obtain ⟨hbefore, hbetween⟩ := Runs.along_append.mp hok
  have hinv := inv_run (inv_start hr) hbefore
  -- the store's states from the memtable's step to the tables' one; some state in between answers as the lookup
  obtain ⟨n, -, hn⟩ := LayeredStore.lookup_linearizes (trace_run hinv hbetween) key
  refine ⟨between.take n, List.take_prefix n between, ?_⟩
  have hseen : Runs.Along act FlushOk (start e) (before ++ between.take n) :=
    Runs.along_append.mpr ⟨hbefore, hbetween.take n⟩
  have hlatest : view (Runs.run act (start e) (before ++ between.take n)).engine =
      latest (start e) (view e) (before ++ between.take n) := view_run (inv_start hr) hseen
  have hstored : Reading.stored (Runs.run act (start e) before).engine.memtable
      (Runs.run act (start e) (before ++ between)).engine.tables key =
        .ok (latest (start e) (view e) (before ++ between.take n) key) := by
    rw [Runs.run_append, Reading.stored_eq (inv_run hinv hbetween).readable, ← hlatest, Runs.run_append]
    refine congrArg Except.ok (Eq.trans ?_ hn.symm)
    rw [List.take_length]
    rfl
  rw [Reading.get, hstored]
  rfl

end Lookups

/-! ## Range reads -/

section RangeReads

variable {L : Type} [Log L]

/-- A listed table stays listed, and its file as it is. -/
theorem listed_act {c : Config L} {a : Action} (hok : FlushOk c a) {path : Path}
    (hpath : c.engine.tables.Listed path) :
    (act c a).engine.tables.Listed path ∧ (act c a).engine.tables.files path = c.engine.tables.files path := by
  have hsame : ∀ {t : Tables}, t = c.engine.tables →
      t.Listed path ∧ t.files path = c.engine.tables.files path := by
    rintro t rfl
    exact ⟨hpath, rfl⟩
  have hset : ∀ {newPath : Path} {content : Option Bytes}, ¬c.engine.tables.Listed newPath →
      (c.engine.tables.setFile newPath content).Listed path ∧
        (c.engine.tables.setFile newPath content).files path = c.engine.tables.files path := by
    intro newPath content hfree
    obtain ⟨m, hm, heq⟩ := hpath
    exact ⟨⟨m, hm, heq⟩, heq ▸ Tables.files_of_not_listed hfree content m hm⟩
  cases a with
  | put writer key value | delete writer key | batchPut writer keys values =>
    rw [act]
    split
    · obtain ⟨wal, heq⟩ := begin_same c.engine _
      exact hsame (by rw [engine_wrote, heq])
    · exact hsame rfl
  | write writer =>
    obtain ⟨memtable, wal, heq⟩ := writeNext_same c.engine (c.writers writer)
    exact hsame (by rw [act, engine_wrote, heq])
  | rotate => exact hsame rfl
  | raise nowMs content =>
    rw [FlushOk] at hok
    rw [act]
    cases hpc : c.flush with
    | writing items walOffset =>
      rw [hpc] at hok
      exact hset hok
    | idle | collected | written | described | added | saved | recorded | cleared | returned | raised =>
      exact hsame rfl
  | flush nowMs =>
    rw [FlushOk] at hok
    rw [act]
    cases hpc : c.flush with
    | idle =>
      dsimp only
      rw [flushNext]
      split <;> exact hsame rfl
    | writing items walOffset =>
      rw [hpc] at hok
      obtain ⟨content, heq⟩ :=
        c.engine.tables.write_eq_setFile (.init (sstablePath c.engine.storagePath nowMs) 0) items
      dsimp only
      rw [flushNext]
      rcases hwrite : c.engine.tables.write (.init (sstablePath c.engine.storagePath nowMs) 0) items with
        ⟨t, err | sstable⟩ <;>
      · rw [hwrite] at heq
        obtain rfl : t = c.engine.tables.setFile _ content := heq
        exact hset hok
    | written sstable walOffset =>
      dsimp only
      rw [flushNext]
      rcases c.engine.tables.buildMetadata sstable 0 nowMs with err | metadata <;> exact hsame rfl
    | described metadata walOffset => exact ⟨Tables.listed_addSstable.mpr (.inr hpath), rfl⟩
    | added walOffset | saved walOffset => exact ⟨hpath, rfl⟩
    | collected | recorded | cleared | returned | raised => exact hsame rfl

/-- A step of the threads, or of a reader that opens table files. -/
inductive Move where
  | act (a : Action)
  | read
deriving DecidableEq, Repr

/-- What it does. -/
def move {α : Type} (s : Config L × Reads Path (Option Bytes) α) : Move → Config L × Reads Path (Option Bytes) α
  | .act a => (act s.1 a, s.2)
  | .read => (s.1, s.2.step s.1.engine.tables.files)

/-- Flushes go well. -/
def MoveOk {α : Type} (s : Config L × Reads Path (Option Bytes) α) : Move → Prop
  | .act a => FlushOk s.1 a
  | .read => True

/-- A reader that opens the files listed at `c` will come to the result it would have come
to there. -/
structure ReadInv {α : Type} (c : Config L) (q : Reading.Query) (a : α) (s : Config L × Reads Path (Option Bytes) α) :
    Prop where
  inv : Inv s.1
  files : ∀ path, c.engine.tables.Listed path →
    s.1.engine.tables.Listed path ∧ s.1.engine.tables.files path = c.engine.tables.files path
  reader : s.2.Robust c.engine.tables.files none c.engine.tables.Listed
    (Reading.HoldsNone c.engine.tables.files q.Asks)
  result : s.2.run c.engine.tables.files = a

theorem readInv_move {α : Type} {c : Config L} {q : Reading.Query} {a : α}
    {s : Config L × Reads Path (Option Bytes) α} (h : ReadInv c q a s) {m : Move} (hok : MoveOk s m) :
    ReadInv c q a (move s m) := by
  cases m with
  | act action =>
    refine ⟨(act_step h.inv hok).inv, ?_, h.reader, h.result⟩
    intro path hpath
    obtain ⟨hlisted, hfiles⟩ := h.files path hpath
    obtain ⟨hlisted', hfiles'⟩ := listed_act hok hlisted
    exact ⟨hlisted', hfiles'.trans hfiles⟩
  -- a listed file is as it was when the manifest was looked at
  | read =>
    obtain ⟨hreader, hresult⟩ := h.reader.step s.1.engine.tables.files
      fun path _ _ hpath => .inl (h.files path hpath).2
    exact ⟨h.inv, h.files, hreader, hresult.trans h.result⟩

/-- **A read that has looked at the manifest** comes to the result of the tables as they
were then, whatever the threads do while it opens the files. -/
theorem read_finished {c : Config L} (h : Inv c) (memtable : MemTable) (q : Reading.Query) {moves : List Move}
    (hok : Runs.Along move MoveOk (c, (q.steps memtable c.engine.tables.manifest).run) moves)
    {answer : Except Error q.Answer}
    (hdone : (Runs.run move (c, (q.steps memtable c.engine.tables.manifest).run) moves).2.finished = some answer) :
    answer = q.answer memtable c.engine.tables := by
  have hstart : ReadInv c q (q.answer memtable c.engine.tables)
      (c, (q.steps memtable c.engine.tables.manifest).run) :=
    ⟨h, fun _ hpath => ⟨hpath, rfl⟩, Reading.robust_steps h.readable memtable q,
      Reading.result_steps c.engine.tables.files memtable c.engine.tables.manifest q⟩
  have hend := Runs.run_invariant (fun _ _ hinv hok => readInv_move hinv hok) hstart hok
  exact (Reads.run_of_finished hdone c.engine.tables.files).symm.trans hend.result

/-! ## Batches in range reads -/

/-- The writing section a writer is about to enter is one of the batch, or touches none of
its keys. -/
def Spares (items : List (Bytes × Bytes)) : WriterPc → Prop
  | .putLogged key _ _ => key ∉ items.map Prod.fst
  | .deleteLogged key _ => key ∉ items.map Prod.fst
  | .batchLogged items' _ _ => items' = items ∨ ∀ key ∈ items.map Prod.fst, key ∉ items'.map Prod.fst
  | _ => True

/-- The only writing sections that touch the keys of the batch are its own. -/
def OnlyBatch (items : List (Bytes × Bytes)) (c : Config L) : Action → Prop
  | .write writer => Spares items (c.writers writer)
  | _ => True

instance (items : List (Bytes × Bytes)) : (pc : WriterPc) → Decidable (Spares items pc)
  | .putLogged key _ _ => inferInstanceAs (Decidable (key ∉ items.map Prod.fst))
  | .deleteLogged key _ => inferInstanceAs (Decidable (key ∉ items.map Prod.fst))
  | .batchLogged items' _ _ =>
    inferInstanceAs (Decidable (items' = items ∨ ∀ key ∈ items.map Prod.fst, key ∉ items'.map Prod.fst))
  | .idle | .deleteApplied _ _ | .batchSizing _ _ _ _ => .isTrue trivial

instance (items : List (Bytes × Bytes)) (c : Config L) : (a : Action) → Decidable (OnlyBatch items c a)
  | .write writer => inferInstanceAs (Decidable (Spares items (c.writers writer)))
  | .put _ _ _ | .delete _ _ | .batchPut _ _ _ | .rotate | .flush _ | .raise _ _ => .isTrue trivial

/-- The result shows the keys of the batch as they were at the scan of the memtable. -/
def AsBefore (items : List (Bytes × Bytes)) (c : Config L) (result : List (Bytes × Bytes)) : Prop :=
  ∀ key ∈ items.map Prod.fst, assoc result key = Reading.live (view c.engine key)

/-- It shows them as the batch leaves them. -/
def AsAfter (items : List (Bytes × Bytes)) (result : List (Bytes × Bytes)) : Prop :=
  ∀ key ∈ items.map Prod.fst, assoc result key = Reading.live (itemsLayer items key)

/-- One key of the batch was in the memtable at the scan, with another value than the
batch gives it; another one was not, and its answer in the tables has changed by the
time the manifest is looked at. -/
def Torn (items : List (Bytes × Bytes)) (scanned snapshot : Config L) : Prop :=
  (∃ key ∈ items.map Prod.fst, ∃ value, scanned.engine.memtable.get key = some value ∧
      Reading.live (some value) ≠ Reading.live (itemsLayer items key)) ∧
    ∃ key ∈ items.map Prod.fst, scanned.engine.memtable.get key = none ∧
      Reading.live (snapshot.engine.tables.layer key) ≠ Reading.live (scanned.engine.tables.layer key)

omit [Log L] in
theorem writes_of_onlyBatch {items : List (Bytes × Bytes)} {c : Config L} {a : Action} (h : OnlyBatch items c a)
    {u : Layer Bytes Bytes} (hu : c.writes a = some u) :
    u = itemsLayer items ∨ ∀ key ∈ items.map Prod.fst, u key = none := by
  have hentry : ∀ {key : Bytes} (value : Bytes), key ∉ items.map Prod.fst →
      ∀ k ∈ items.map Prod.fst, MemTable.entry key value k = none :=
    fun _ hnot k hk => if_neg fun heq => hnot (by rwa [heq])
  cases a with
  | write writer =>
    rw [writes] at hu
    rw [OnlyBatch] at h
    cases hpc : c.writers writer with
    | putLogged key value offset =>
      rw [hpc] at h hu
      rw [← Option.some.inj hu]
      exact .inr (hentry value h)
    | deleteLogged key offset =>
      rw [hpc] at h hu
      rw [← Option.some.inj hu]
      exact .inr (hentry tombstone h)
    | batchLogged items' inputSize lastOffset =>
      rw [hpc] at h hu
      rw [← Option.some.inj hu]
      refine h.imp (congrArg itemsLayer) ?_
      intro hdisjoint key hkey
      refine assoc_eq_none_iff.mpr ?_
      rw [List.map_reverse, List.mem_reverse]
      exact hdisjoint key hkey
    | idle | deleteApplied key offset | batchSizing keys values rest inputSize =>
      rw [hpc] at hu
      cases hu
  | put writer key value | delete writer key | batchPut writer keys values | rotate | flush nowMs
  | raise nowMs content => cases hu

omit [Log L] in
theorem itemsLayer_ne_none {items : List (Bytes × Bytes)} {key : Bytes} (h : key ∈ items.map Prod.fst) :
    itemsLayer items key ≠ none := by
  rw [itemsLayer, Ne, assoc_eq_none_iff, List.map_reverse, List.mem_reverse, not_not]
  exact h

/-- Beside a batch and writes of other keys, the keys of the batch that are not in the
memtable reach the tables at once. -/
theorem uniform_run {items : List (Bytes × Bytes)} {c : Config L} (h : Inv c) {actions : List Action}
    (hok : Runs.Along act FlushOk c actions) (honly : Runs.Along act (OnlyBatch items) c actions)
    {old : Layer Bytes Bytes} {K : Bytes → Prop} (hK : ∀ key, K key → key ∈ items.map Prod.fst)
    (huniform : LayeredStore.Uniform (itemsLayer items) old K (store c.engine.memtable c.engine.tables)) :
    LayeredStore.Uniform (itemsLayer items) old K
      (store (Runs.run act c actions).engine.memtable (Runs.run act c actions).engine.tables) := by
  induction actions generalizing c with
  | nil => exact huniform
  | cons a actions ih =>
    have hstepped := act_step h hok.1
    refine ih hstepped.inv hok.2 honly.2 (LayeredStore.uniform_step huniform
      (fun key hkey => itemsLayer_ne_none (hK key hkey)) hstepped.step ?_)
    intro v hv
    have hwrites : c.writes a = some v := by
      rw [event] at hv
      cases hw : c.writes a with
      | none => rw [hw] at hv; cases hv
      | some u => rw [hw] at hv; cases hv; rfl
    exact (writes_of_onlyBatch honly.1 hwrites).imp_right fun hclear key hkey => hclear key (hK key hkey)

/-- **When a range read shows a part of a batch.** The memtable is scanned at `c`, the
manifest is looked at after the actions `before`, and the files are opened in between
the `moves`; nothing but the batch writes its keys before the manifest is looked at.
The read shows all keys of the batch as at the scan, or all as the batch leaves them,
exactly if it is not torn between memtable and tables. -/
theorem batch_atomic_iff (c : Config L) (hinv : Inv c) (items : List (Bytes × Bytes)) (startKey endKey : Bytes)
    (hrange : ∀ key ∈ items.map Prod.fst, startKey ≤ key ∧ key < endKey)
    (before : List Action) (hbefore : Runs.Along act FlushOk c before)
    (honly : Runs.Along act (OnlyBatch items) c before) (moves : List Move)
    (hmoves : Runs.Along move MoveOk (Runs.run act c before,
      ((Reading.Query.range startKey endKey).steps c.engine.memtable
        (Runs.run act c before).engine.tables.manifest).run) moves)
    (answer : Except Error (List (Bytes × Bytes)))
    (hdone : (Runs.run move (Runs.run act c before,
      ((Reading.Query.range startKey endKey).steps c.engine.memtable
        (Runs.run act c before).engine.tables.manifest).run) moves).2.finished = some answer) :
    ∃ result, answer = .ok result ∧
      (AsBefore items c result ∨ AsAfter items result ↔ ¬Torn items c (Runs.run act c before)) := by
  have hinv' := inv_run hinv hbefore
  have hanswer := read_finished hinv' c.engine.memtable (.range startKey endKey) hmoves hdone
  obtain ⟨result, hread, -, hresult⟩ :=
    Reading.readKeyRange_spec hinv'.readable c.engine.memtable startKey endKey
  refine ⟨result, hanswer.trans hread, ?_⟩
  -- what the read shows of a key: the memtable's value at the scan, else the tables' at the snapshot
  have hshown : ∀ key ∈ items.map Prod.fst, assoc result key = Reading.live
      ((c.engine.memtable.get key).or ((Runs.run act c before).engine.tables.layer key)) := by
    intro key hkey
    rw [hresult, Reading.inRange, if_pos (hrange key hkey), Reading.view, above_apply, ← MemTable.get_eq_layer]
  have hview : ∀ key, view c.engine key = (c.engine.memtable.get key).or (c.engine.tables.layer key) := by
    intro key
    rw [view, Reading.view, above_apply, ← MemTable.get_eq_layer]
  constructor
  · rintro hall ⟨⟨key, hkey, value, hheld, hother⟩, absent, habsent, hnone, hchanged⟩
    rcases hall with hbefore | hafter
    · have := hbefore absent habsent
      rw [hshown absent habsent, hview, hnone, Option.none_or, Option.none_or] at this
      exact hchanged this
    · have := hafter key hkey
      rw [hshown key hkey, hheld] at this
      exact hother this
  · intro hwhole
    have hstart : LayeredStore.Uniform (itemsLayer items) c.engine.tables.layer
        (fun key => key ∈ items.map Prod.fst ∧ c.engine.memtable.get key = none)
        (store c.engine.memtable c.engine.tables) := by
      refine LayeredStore.uniform_of_absent (s := store c.engine.memtable c.engine.tables) ?_
      rintro key ⟨-, hnone⟩
      rw [memory_store, ← MemTable.get_eq_layer, hnone]
    have hasBefore : (∀ key ∈ items.map Prod.fst, c.engine.memtable.get key = none →
        Reading.live ((Runs.run act c before).engine.tables.layer key) =
          Reading.live (c.engine.tables.layer key)) → AsBefore items c result := by
      intro hsame key hkey
      rw [hshown key hkey, hview]
      cases hheld : c.engine.memtable.get key with
      | some value => rfl
      | none => exact hsame key hkey hheld
    -- the keys that the memtable lacked are in the tables all as before, or all as the batch leaves them
    rcases (uniform_run hinv hbefore honly (fun _ hkey => hkey.1) hstart).tables with hold | hnew
    · exact .inl (hasBefore fun key hkey hnone => congrArg Reading.live (hold key ⟨hkey, hnone⟩))
    · by_cases hheld : ∃ key ∈ items.map Prod.fst, ∃ value, c.engine.memtable.get key = some value ∧
          Reading.live (some value) ≠ Reading.live (itemsLayer items key)
      · refine .inl (hasBefore ?_)
        intro key hkey hnone
        by_contra hchanged
        exact hwhole ⟨hheld, key, hkey, hnone, hchanged⟩
      · refine .inr ?_
        intro key hkey
        rw [hshown key hkey]
        cases hget : c.engine.memtable.get key with
        | some value =>
          by_contra hother
          exact hheld ⟨key, hkey, value, hget, hother⟩
        | none => exact congrArg Reading.live (hnew key ⟨hkey, hget⟩)

end RangeReads

/-! ## Some runs -/

/-- A key is put, frozen and flushed while a lookup is under way, the table being written
twice since the first flush raises. -/
def flushedTwice : List Action :=
  [.rotate, .flush 0, .flush 0, .flush 5, .raise 0 none, .flush 0] ++
    [.flush 0, .flush 0, .flush 6, .flush 7, .flush 0, .flush 0, .flush 0, .flush 0]

/-- The value is found, although its buffer goes away between the two steps of the lookup. -/
theorem get_linearizes_flushedTwice :
    Reading.get (Runs.run act (start (fresh "db" 1000)) [.put 0 [97] [49], .write 0]).engine.memtable
        (Runs.run act (start (fresh "db" 1000)) ([.put 0 [97] [49], .write 0] ++ flushedTwice)).engine.tables [97] =
      .ok [49] := by
  obtain ⟨seen, hseen, hget⟩ := get_linearizes (fresh "db" 1000) (sound_fresh "db" 1000).readable
    [.put 0 [97] [49], .write 0] flushedTwice
    ⟨by decide +kernel, by decide +kernel, by decide +kernel, by decide +kernel⟩ [97]
  -- nothing is written to the key in between, so it is the same value at every moment
  have hlatest : ∀ n ≤ flushedTwice.length, latest (start (fresh "db" 1000)) (view (fresh "db" 1000))
      ([.put 0 [97] [49], .write 0] ++ flushedTwice.take n) [97] = some [49] := by decide +kernel
  rw [hget, List.prefix_iff_eq_take.mp hseen, hlatest _ hseen.length_le]
  rfl

/-- A batch is put, frozen and flushed while a range read is under way. -/
def batchFlushed : List Action :=
  [.batchPut 0 [[97], [98]] [[50], [51]], .write 0, .write 0, .write 0, .write 0, .rotate,
    .flush 0, .flush 0, .flush 5, .flush 6, .flush 0, .flush 0]

/-- An old value of one of its keys is in the memtable. -/
def oneKeyHeld : Config Wal := Runs.run act (start (fresh "db" 1000)) [.put 1 [97] [49], .write 1]

theorem inv_oneKeyHeld : Inv oneKeyHeld :=
  inv_run (inv_start (sound_fresh "db" 1000).readable) ⟨trivial, trivial, trivial⟩

/-- The read shows the old value of one key and the new value of the other. -/
theorem batch_atomic_fails :
    ¬ ∀ (c : Config Wal), Inv c → ∀ (items : List (Bytes × Bytes)) (startKey endKey : Bytes),
      (∀ key ∈ items.map Prod.fst, startKey ≤ key ∧ key < endKey) → ∀ before : List Action,
      Runs.Along act FlushOk c before → Runs.Along act (OnlyBatch items) c before →
      ∀ moves : List Move, Runs.Along move MoveOk (Runs.run act c before,
        ((Reading.Query.range startKey endKey).steps c.engine.memtable
          (Runs.run act c before).engine.tables.manifest).run) moves →
      ∀ answer : Except Error (List (Bytes × Bytes)), (Runs.run move (Runs.run act c before,
        ((Reading.Query.range startKey endKey).steps c.engine.memtable
          (Runs.run act c before).engine.tables.manifest).run) moves).2.finished = some answer →
      ∃ result, answer = .ok result ∧ (AsBefore items c result ∨ AsAfter items result) := by
  intro h
  obtain ⟨result, hanswer, hwhole⟩ := h oneKeyHeld inv_oneKeyHeld [([97], [50]), ([98], [51])] [97] [99]
    (by decide) batchFlushed (by decide +kernel) (by decide +kernel) (List.replicate 3 .read)
    ⟨trivial, trivial, trivial, trivial⟩ (.ok [([97], [49]), ([98], [51])]) (by decide +kernel)
  obtain rfl := Except.ok.inj hanswer
  rcases hwhole with hbefore | hafter
  · have hold := hbefore [98] (by decide)
    revert hold
    decide +kernel
  · have hnew := hafter [97] (by decide)
    revert hnew
    decide +kernel

theorem batch_atomic_iff_batchFlushed :
    ∃ result, Except.ok [([97], [49]), ([98], [51])] = (.ok result : Except Error (List (Bytes × Bytes))) ∧
      (AsBefore [([97], [50]), ([98], [51])] oneKeyHeld result ∨ AsAfter [([97], [50]), ([98], [51])] result ↔
        ¬Torn [([97], [50]), ([98], [51])] oneKeyHeld (Runs.run act oneKeyHeld batchFlushed)) :=
  batch_atomic_iff oneKeyHeld inv_oneKeyHeld [([97], [50]), ([98], [51])] [97] [99] (by decide) batchFlushed
    (by decide +kernel) (by decide +kernel) (List.replicate 3 .read) ⟨trivial, trivial, trivial, trivial⟩ _
    (by decide +kernel)

end Config

end LSMStorageEngine

end Logvine
