import Logvine.Base.Runs
import Logvine.Storage.EngineSteps

/-!
# Threads on one engine

Any number of threads that write to one engine, rotations, and flushes, their atomic
steps in any order. A write appends to the log under the log's lock and changes the
memtable under the memtable's, in two steps; a batch first reads its previous values
one by one, and a deletion raises the memtable's offset in a step of its own. A flush
holds the flush lock for all of its steps, so at most one is under way; each of its
steps may also raise.

- `act`: what an action does; one that is not possible changes nothing;
- `put_act`, `delete_act`, `batchPut_act`: with no other thread in between, the steps
  of a write are the sequential call;
- `act_step`: every action is one step of the layered store, and keeps what the flush
  under way relies on, if a flush finds an unused name and a later time.

The steps follow `engine.py`: 141–162 for `put`, 197–199 for `delete`, 251–275 for
`batch_put` and 294–316 for `flush`, whose `except` (321–322) ends it wherever it is. The
limit is never changed, and a step of a flush changes none of the engine's settings
(`memtableMaxSize_act`, `settings_flushNext`).
-/

namespace Logvine

open Layer SSTableManager

namespace LSMStorageEngine

/-- How far a thread has come with the write it is making. -/
inductive WriterPc where
  | idle
  | putLogged (key value : Bytes) (offset : Nat)
  | deleteLogged (key : Bytes) (offset : Nat)
  | deleteApplied (key : Bytes) (offset : Nat)
  | batchSizing (keys values : List Bytes) (rest : List (Bytes × Bytes)) (inputSize : Int)
  | batchLogged (items : List (Bytes × Bytes)) (inputSize : Int) (lastOffset : Nat)
deriving DecidableEq, Repr

/-- An engine and the threads that work on it: the writers, and the flush that holds the
flush lock (`idle` if none does). -/
structure Config (L : Type) where
  engine : LSMStorageEngine L
  writers : Nat → WriterPc
  flush : FlushPc

/-- An atomic step of some thread. -/
inductive Action where
  | put (writer : Nat) (key value : Bytes)
  | delete (writer : Nat) (key : Bytes)
  | batchPut (writer : Nat) (keys values : List Bytes)
  | write (writer : Nat)
  | rotate
  | flush (nowMs : Nat)
  | raise (nowMs : Nat) (content : Option Bytes)
deriving DecidableEq, Repr

namespace Config

variable {L : Type} [Log L]

/-- No thread has begun. -/
def start (e : LSMStorageEngine L) : Config L := ⟨e, fun _ => .idle, .idle⟩

/-- A writer's next step after the first: the section under the memtable's lock, or for a
batch one more value read, and the comparison with the limit and the append. -/
def writeNext (e : LSMStorageEngine L) : WriterPc → LSMStorageEngine L × WriterPc
  | .idle => (e, .idle)
  | .putLogged key value offset => ({ e with memtable := putSection e.memtable key value offset }, .idle)
  | .deleteLogged key offset => ({ e with memtable := e.memtable.delete key }, .deleteApplied key offset)
  | .deleteApplied _ offset => ({ e with memtable := e.memtable.setMaxWalOffset offset }, .idle)
  | .batchSizing keys values (item :: rest) inputSize =>
    (e, .batchSizing keys values rest (inputSize + entrySize e.memtable item.1 item.2))
  | .batchSizing keys values [] inputSize =>
    if e.memtableMaxSize < inputSize then (e, .idle)
    else
      match Log.appendBatch e.wal OperationType.put keys values with
      | (wal, .error _) => ({ e with wal := wal }, .idle)
      | (wal, .ok lastOffset) => ({ e with wal := wal }, .batchLogged (keys.zip values) inputSize lastOffset)
  | .batchLogged items inputSize lastOffset =>
    ({ e with memtable := batchSection e.memtable inputSize items lastOffset }, .idle)

/-- The step a writer begins a call with. -/
def begin (e : LSMStorageEngine L) : Action → LSMStorageEngine L × WriterPc
  | .put _ key value =>
    match Log.append e.wal OperationType.put key value with
    | (wal, .error _) => ({ e with wal := wal }, .idle)
    | (wal, .ok offset) => ({ e with wal := wal }, .putLogged key value offset)
  | .delete _ key =>
    match Log.append e.wal OperationType.delete key [] with
    | (wal, .error _) => ({ e with wal := wal }, .idle)
    | (wal, .ok offset) => ({ e with wal := wal }, .deleteLogged key offset)
  | .batchPut _ keys values =>
    if keys.length ≠ values.length then (e, .idle) else (e, .batchSizing keys values (keys.zip values) 0)
  | _ => (e, .idle)

/-- The writer has done this. -/
def wrote (c : Config L) (writer : Nat) (next : LSMStorageEngine L × WriterPc) : Config L :=
  { c with engine := next.1, writers := Function.update c.writers writer next.2 }

/-- One atomic step. An exception while the table is written may leave anything under its
name; a flush that has ended gives the lock back. -/
def act (c : Config L) (a : Action) : Config L :=
  match a with
  | .put writer _ _ | .delete writer _ | .batchPut writer _ _ =>
    if c.writers writer = .idle then c.wrote writer (begin c.engine a) else c
  | .write writer => c.wrote writer (writeNext c.engine (c.writers writer))
  | .rotate => { c with engine := c.engine.rotate }
  | .flush nowMs =>
    match c.flush with
    | .returned | .raised _ => { c with flush := .idle }
    | pc => { c with engine := (flushNext nowMs c.engine pc).1, flush := (flushNext nowMs c.engine pc).2 }
  | .raise nowMs content =>
    match c.flush with
    | .idle | .returned | .raised _ => c
    | .writing _ _ =>
      { c with
        engine := { c.engine with
          tables := c.engine.tables.setFile (sstablePath c.engine.storagePath nowMs) content }
        flush := .raised .osError }
    | _ => { c with flush := .raised .osError }

/-! ## One writer alone -/

omit [Log L] in
@[simp] theorem engine_wrote (c : Config L) (writer : Nat) (next : LSMStorageEngine L × WriterPc) :
    (c.wrote writer next).engine = next.1 := rfl

omit [Log L] in
@[simp] theorem writers_wrote (c : Config L) (writer : Nat) (next : LSMStorageEngine L × WriterPc) :
    (c.wrote writer next).writers writer = next.2 := Function.update_self ..

/-- The steps of a put are `put`. -/
theorem put_act (c : Config L) {writer : Nat} (h : c.writers writer = .idle) (key value : Bytes) :
    (Runs.run act c [.put writer key value, .write writer]).engine = (c.engine.put key value).1 := by
  show (act (act c (.put writer key value)) (.write writer)).engine = _
  rw [act, act, if_pos h, engine_wrote, engine_wrote, writers_wrote, begin, LSMStorageEngine.put]
  rcases Log.append c.engine.wal OperationType.put key value with ⟨wal, err | offset⟩ <;> rfl

/-- The steps of a deletion are `delete`. -/
theorem delete_act (c : Config L) {writer : Nat} (h : c.writers writer = .idle) (key : Bytes) :
    (Runs.run act c [.delete writer key, .write writer, .write writer]).engine = (c.engine.delete key).1 := by
  show (act (act (act c (.delete writer key)) (.write writer)) (.write writer)).engine = _
  rw [act, act, act, if_pos h, engine_wrote, engine_wrote, engine_wrote, writers_wrote, writers_wrote, begin,
    LSMStorageEngine.delete]
  rcases Log.append c.engine.wal OperationType.delete key [] with ⟨wal, err | offset⟩ <;> rfl

/-- Reading the previous values of a batch. -/
theorem run_sizing {c : Config L} {writer : Nat} {keys values : List Bytes} {rest : List (Bytes × Bytes)}
    {inputSize : Int} (h : c.writers writer = .batchSizing keys values rest inputSize) :
    Runs.run act c (List.replicate rest.length (.write writer)) = c.wrote writer (c.engine,
      .batchSizing keys values []
        (rest.foldl (fun size item => size + entrySize c.engine.memtable item.1 item.2) inputSize)) := by
  induction rest generalizing c inputSize with
  | nil =>
    rw [wrote, List.foldl_nil, ← h, Function.update_eq_self]
    rfl
  | cons item rest ih =>
    have hstep : act c (.write writer) = c.wrote writer (c.engine,
        .batchSizing keys values rest (inputSize + entrySize c.engine.memtable item.1 item.2)) := by
      rw [act, h]
      rfl
    rw [List.length_cons, List.replicate_succ, Runs.run_cons, hstep, ih (writers_wrote ..)]
    simp only [wrote, Function.update_idem, List.foldl_cons]

/-- The steps of a batch are `batch_put`. -/
theorem batchPut_act (c : Config L) {writer : Nat} (h : c.writers writer = .idle) (keys values : List Bytes) :
    (Runs.run act c (.batchPut writer keys values ::
      List.replicate ((keys.zip values).length + 2) (.write writer))).engine =
        (c.engine.batchPut keys values).1 := by
  -- a batch that has been refused leaves its writer idle, whose further steps do nothing
  have hidle : ∀ {c' : Config L} {n : Nat}, c'.writers writer = .idle →
      (Runs.run act c' (List.replicate n (.write writer))).engine = c'.engine := by
    intro c' n hidle
    induction n generalizing c' with
    | zero => rfl
    | succ n ih =>
      have hstep : act c' (.write writer) = c'.wrote writer (c'.engine, .idle) := by
        rw [act, hidle]
        rfl
      rw [List.replicate_succ, Runs.run_cons, hstep]
      exact ih (writers_wrote ..)
  rw [Runs.run_cons, act, if_pos h, begin, LSMStorageEngine.batchPut]
  split
  · exact hidle (writers_wrote ..)
  -- the values are read one by one, then come the append and the section
  · rw [List.replicate_add, Runs.run_append, run_sizing (writers_wrote ..)]
    show (act (act (wrote _ writer _) (.write writer)) (.write writer)).engine = _
    rw [act, act, engine_wrote, engine_wrote, writers_wrote, writers_wrote, writeNext]
    split
    · next hsize =>
      have hlarge : c.engine.memtableMaxSize < batchInputSize c.engine.memtable (keys.zip values) := hsize
      dsimp only
      rw [if_pos hlarge]
      rfl
    · next hsize =>
      have hsmall : ¬c.engine.memtableMaxSize < batchInputSize c.engine.memtable (keys.zip values) := hsize
      dsimp only
      rw [if_neg hsmall]
      simp only [engine_wrote]
      rcases Log.appendBatch c.engine.wal OperationType.put keys values with ⟨wal, err | lastOffset⟩ <;> rfl

/-! ## Actions as steps of the store -/

/-- The entries an action lays over the memtable, if it is a writing section. -/
def writes (c : Config L) : Action → Option (Layer Bytes Bytes)
  | .write writer =>
    match c.writers writer with
    | .putLogged key value _ => some (MemTable.entry key value)
    | .deleteLogged key _ => some (MemTable.entry key tombstone)
    | .batchLogged items _ _ => some (itemsLayer items)
    | _ => none
  | _ => none

/-- An action as a reader sees it. -/
def event (c : Config L) (a : Action) : LayeredStore.Event Bytes Bytes :=
  match c.writes a with
  | some u => .write u
  | none => .quiet

/-- A file that is about to be written has an unused name. -/
def NameFree (storagePath : Path) (t : Tables) (nowMs : Nat) : FlushPc → Prop
  | .writing _ _ => ¬t.Listed (sstablePath storagePath nowMs)
  | _ => True

/-- A flush that writes its file finds an unused name, and one that describes it a time
not before those of the tables of level 0. -/
def FlushOk (c : Config L) : Action → Prop
  | .flush nowMs => FlushClock c.engine.storagePath c.engine.tables nowMs c.flush
  | .raise nowMs _ => NameFree c.engine.storagePath c.engine.tables nowMs c.flush
  | _ => True

instance (storagePath : Path) (t : Tables) (nowMs : Nat) :
    (pc : FlushPc) → Decidable (NameFree storagePath t nowMs pc)
  | .writing _ _ => inferInstanceAs (Decidable (¬t.Listed _))
  | .idle | .collected _ | .written _ _ | .described _ _ | .added _ | .saved _ | .recorded _ | .cleared _
  | .returned | .raised _ => .isTrue trivial

instance (storagePath : Path) (t : Tables) (nowMs : Nat) :
    (pc : FlushPc) → Decidable (FlushClock storagePath t nowMs pc)
  | .writing _ _ => inferInstanceAs (Decidable (¬t.Listed _))
  | .written sstable _ =>
    inferInstanceAs (Decidable (∀ m ∈ t.manifest.getLevelSstables 0, m.stamp ≤ toLex (nowMs, sstable.path)))
  | .idle | .collected _ | .described _ _ | .added _ | .saved _ | .recorded _ | .cleared _ | .returned
  | .raised _ => .isTrue trivial

instance (c : Config L) : (a : Action) → Decidable (FlushOk c a)
  | .flush nowMs => inferInstanceAs (Decidable (FlushClock _ _ nowMs c.flush))
  | .raise nowMs _ => inferInstanceAs (Decidable (NameFree _ _ nowMs c.flush))
  | .put _ _ _ | .delete _ _ | .batchPut _ _ _ | .write _ | .rotate => .isTrue trivial

/-- The tables are readable, and the flush under way can rely on what it has seen. -/
structure Inv (c : Config L) : Prop where
  readable : c.engine.tables.Readable
  flush : FlushInv c.engine.memtable c.engine.tables c.flush

omit [Log L] in
theorem inv_start {e : LSMStorageEngine L} (h : e.tables.Readable) : Inv (start e) := ⟨h, trivial⟩

/-- What an action leaves of a configuration. -/
structure Stepped (c c' : Config L) (event : LayeredStore.Event Bytes Bytes) : Prop where
  inv : Inv c'
  storagePath : c'.engine.storagePath = c.engine.storagePath
  step : LayeredStore.Step (store c.engine.memtable c.engine.tables) event
    (store c'.engine.memtable c'.engine.tables)

omit [Log L] in
theorem stepped_of_same {c c' : Config L} (h : Inv c) (hpath : c'.engine.storagePath = c.engine.storagePath)
    (hmemtable : c'.engine.memtable = c.engine.memtable) (htables : c'.engine.tables = c.engine.tables)
    (hflush : FlushInv c.engine.memtable c.engine.tables c'.flush) : Stepped c c' .quiet := by
  refine ⟨⟨htables ▸ h.readable, ?_⟩, hpath, ?_⟩
  · rwa [hmemtable, htables]
  · rw [hmemtable, htables]
    exact .idle _

omit [Log L] in
/-- A change of the memtable that only adds to the queue. -/
theorem stepped_of_memtable {c : Config L} (h : Inv c) {memtable : MemTable} (wal : L) (writers : Nat → WriterPc)
    (hext : Extends c.engine.memtable memtable) {event : LayeredStore.Event Bytes Bytes}
    (hstep : LayeredStore.Step (store c.engine.memtable c.engine.tables) event (store memtable c.engine.tables)) :
    Stepped c ⟨{ c.engine with memtable := memtable, wal := wal }, writers, c.flush⟩ event :=
  ⟨⟨h.readable, h.flush.later hext⟩, rfl, hstep⟩

/-- The first step of a write changes the log only. -/
theorem begin_same (e : LSMStorageEngine L) (a : Action) : ∃ wal, (begin e a).1 = { e with wal := wal } := by
  cases a with
  | put writer key value =>
    rw [begin]
    rcases Log.append e.wal OperationType.put key value with ⟨wal, err | offset⟩ <;> exact ⟨wal, rfl⟩
  | delete writer key =>
    rw [begin]
    rcases Log.append e.wal OperationType.delete key [] with ⟨wal, err | offset⟩ <;> exact ⟨wal, rfl⟩
  | batchPut writer keys values =>
    rw [begin]
    split <;> exact ⟨e.wal, rfl⟩
  | write writer | rotate | flush nowMs | raise nowMs content => exact ⟨e.wal, rfl⟩

/-- The later steps of a write change the log and the memtable only. -/
theorem writeNext_same (e : LSMStorageEngine L) (pc : WriterPc) :
    ∃ memtable wal, (writeNext e pc).1 = { e with memtable := memtable, wal := wal } := by
  cases pc with
  | batchSizing keys values rest inputSize =>
    cases rest with
    | cons item rest => exact ⟨e.memtable, e.wal, rfl⟩
    | nil =>
      rw [writeNext]
      split
      · exact ⟨e.memtable, e.wal, rfl⟩
      · rcases Log.appendBatch e.wal OperationType.put keys values with ⟨wal, err | lastOffset⟩ <;>
          exact ⟨e.memtable, wal, rfl⟩
  | idle | putLogged | deleteLogged | deleteApplied | batchLogged => exact ⟨_, e.wal, rfl⟩

theorem stepped_begin {c : Config L} (h : Inv c) (a : Action) (writer : Nat) :
    Stepped c (if c.writers writer = .idle then c.wrote writer (begin c.engine a) else c) .quiet := by
  split
  · obtain ⟨wal, heq⟩ := begin_same c.engine a
    exact stepped_of_same h (by rw [engine_wrote, heq]) (by rw [engine_wrote, heq]) (by rw [engine_wrote, heq])
      h.flush
  · exact stepped_of_same h rfl rfl rfl h.flush

theorem stepped_write {c : Config L} (h : Inv c) (writer : Nat) :
    Stepped c (act c (.write writer)) (c.event (.write writer)) := by
  rw [act, event, writes]
  have hidle := LayeredStore.Step.idle (store c.engine.memtable c.engine.tables)
  cases hpc : c.writers writer with
  | idle => exact stepped_of_same h rfl rfl rfl h.flush
  | putLogged key value offset =>
    exact stepped_of_memtable h _ _ (extends_putSection ..) (step_putSection ..)
  | deleteLogged key offset =>
    have hext : Extends c.engine.memtable (c.engine.memtable.delete key) := List.prefix_rfl
    exact stepped_of_memtable h _ _ hext (step_delete ..)
  | deleteApplied key offset =>
    have hext : Extends c.engine.memtable (c.engine.memtable.setMaxWalOffset offset) := List.prefix_rfl
    exact stepped_of_memtable h _ _ hext hidle
  | batchLogged items inputSize lastOffset =>
    exact stepped_of_memtable h _ _ (extends_batchSection ..) (step_batchSection ..)
  | batchSizing keys values rest inputSize =>
    cases rest with
    | cons item rest => exact stepped_of_same h rfl rfl rfl h.flush
    | nil =>
      rw [writeNext]
      split
      · exact stepped_of_same h rfl rfl rfl h.flush
      · rcases Log.appendBatch c.engine.wal OperationType.put keys values with ⟨wal, err | lastOffset⟩ <;>
          exact stepped_of_same h rfl rfl rfl h.flush

/-- A flush leaves the settings the engine was started with. -/
theorem settings_flushNext (nowMs : Nat) (e : LSMStorageEngine L) (pc : FlushPc) :
    (flushNext nowMs e pc).1.storagePath = e.storagePath ∧
      (flushNext nowMs e pc).1.memtableMaxSize = e.memtableMaxSize := by
  cases pc with
  | idle =>
    rw [flushNext]
    split <;> exact ⟨rfl, rfl⟩
  | writing items walOffset =>
    rw [flushNext]
    rcases e.tables.write (.init (sstablePath e.storagePath nowMs) 0) items with ⟨t, err | sstable⟩ <;>
      exact ⟨rfl, rfl⟩
  | written sstable walOffset =>
    rw [flushNext]
    rcases e.tables.buildMetadata sstable 0 nowMs with err | metadata <;> exact ⟨rfl, rfl⟩
  | collected | described | added | saved | recorded | cleared | returned | raised => exact ⟨rfl, rfl⟩

theorem stepped_flush {c : Config L} (h : Inv c) {nowMs : Nat} (hok : FlushOk c (.flush nowMs)) :
    Stepped c (act c (.flush nowMs)) .quiet := by
  rw [act]
  split
  · exact stepped_of_same h rfl rfl rfl trivial
  · exact stepped_of_same h rfl rfl rfl trivial
  · obtain ⟨hflush, hreadable, hstep⟩ := flushInv_next h.flush h.readable hok
    exact ⟨⟨hreadable, hflush⟩, (settings_flushNext ..).1, hstep⟩

theorem stepped_raise {c : Config L} (h : Inv c) {nowMs : Nat} {content : Option Bytes}
    (hok : FlushOk c (.raise nowMs content)) : Stepped c (act c (.raise nowMs content)) .quiet := by
  rw [act]
  rw [FlushOk] at hok
  cases hpc : c.flush with
  | writing items walOffset =>
    -- no listed table reads the file, whatever the exception has left in it
    rw [hpc, NameFree] at hok
    refine ⟨⟨Tables.readable_setFile h.readable hok _, trivial⟩, rfl, ?_⟩
    show LayeredStore.Step (store c.engine.memtable c.engine.tables) _
      (store c.engine.memtable (c.engine.tables.setFile _ content))
    rw [store, store, Tables.layer_setFile hok]
    exact .idle _
  | idle | returned | raised err =>
    exact stepped_of_same h rfl rfl rfl h.flush
  | collected | written | described | added | saved | recorded | cleared =>
    exact stepped_of_same h rfl rfl rfl trivial

/-- **Every action** is one step of the store, and keeps what a flush relies on. -/
theorem act_step {c : Config L} (h : Inv c) {a : Action} (hok : FlushOk c a) :
    Stepped c (act c a) (c.event a) := by
  cases a with
  | put writer key value | delete writer key | batchPut writer keys values => exact stepped_begin h _ writer
  | write writer => exact stepped_write h writer
  | rotate => exact stepped_of_memtable h c.engine.wal _ (extends_rotateUnlocked _) (step_rotate ..)
  | flush nowMs => exact stepped_flush h hok
  | raise nowMs content => exact stepped_raise h hok

/-! ## The limit -/

/-- The limit a batch is measured by is that of the start, whatever the threads do. -/
theorem memtableMaxSize_act (c : Config L) (a : Action) :
    (act c a).engine.memtableMaxSize = c.engine.memtableMaxSize := by
  cases a with
  | put writer key value | delete writer key | batchPut writer keys values =>
    rw [act]
    split
    · obtain ⟨wal, heq⟩ := begin_same c.engine _
      rw [engine_wrote, heq]
    · rfl
  | write writer =>
    obtain ⟨memtable, wal, heq⟩ := writeNext_same c.engine (c.writers writer)
    rw [act, engine_wrote, heq]
  | rotate => rfl
  | flush nowMs =>
    rw [act]
    split
    · rfl
    · rfl
    · exact (settings_flushNext ..).2
  | raise nowMs content =>
    rw [act]
    split <;> rfl

end Config

end LSMStorageEngine

end Logvine
