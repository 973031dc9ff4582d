import Logvine.Storage.ReadWriteLock

/-!
# The locks of an engine

Six locks: the flush lock of the engine, the state lock of the compaction, the locks of
the manifest and of the log, and the two of the memtable's read-write lock. Each entry
point is a sequence of sections, some inside others; an exception, or a value that is
already found, ends a call after some of them, and the locks that it is in are given back.

- `Operation.code`: the lock operations of each entry point, in the order of the source;
- `rank`: flush lock, then state lock, then manifest or log, and the memtable's last;
- `exists_next_run`: in every state that any number of threads reach, some thread can go
  on unless all have finished.

The nestings are few: `flush` holds its lock around everything else (`engine.py`, 291),
`may_start_compaction` reads the manifest inside the state lock (`compaction.py`, 39–43),
and the first reader takes the second lock of the memtable inside the first (`memtable.py`,
43–47).
-/

namespace Logvine

open LockOrder

namespace LSMStorageEngine

/-- The locks of an engine other than the memtable's. -/
inductive Lock where
  | flush
  | state
  | manifest
  | wal
deriving DecidableEq, Repr

/-- The order the locks are taken in. -/
def Lock.rank : Lock → Nat
  | .flush => 0
  | .state => 1
  | .manifest => 2
  | .wal => 2

/-- The lock operations that a thread has still to do. -/
abbrev LockCode := List (Instr Lock MemTable.LockPc)

/-! ## The sections -/

/-- `append`, `append_batch` or `truncate_upto` of the log. -/
def walSection : LockCode := locked .wal []

/-- Any method of the manifest. -/
def manifestSection : LockCode := locked .manifest []

/-- A read of the memtable, from `_acquire_read` to the end of `_release_read`. -/
def readSection : LockCode := [.inside .acquireRead]

/-- A change of the memtable, from `_acquire_write` to the end of `_release_write`. -/
def writeSection : LockCode := [.inside .acquireWrite]

/-- The flag of a compaction in progress is set or taken back. -/
def stateSection : LockCode := locked .state []

/-- `may_start_compaction`; it does not look at the manifest while a compaction is in
progress. -/
def mayStartSection (inProgress : Bool) : LockCode :=
  locked .state (if inProgress then [] else manifestSection)

/-- An entry point, with what its lock operations depend on. -/
inductive Operation where
  | put
  | get
  | delete
  | batchPut (keys : Nat)
  | readKeyRange
  | flush (inProgress : Bool)
  | mayStartCompaction (inProgress : Bool)
  | compact (level0 : Nat)
deriving DecidableEq, Repr

/-- The lock operations of a call that comes as far as `done` of its sections. -/
def Operation.code (done : Nat) : Operation → LockCode
  | .put => ([walSection, writeSection].take done).flatten
  -- the manifest is read only for a key that the memtable has not
  | .get => ([readSection, manifestSection].take done).flatten
  -- `memtable.delete` and `set_max_wal_offset` are two sections
  | .delete => ([walSection, writeSection, writeSection].take done).flatten
  -- `append_batch` of no keys returns before it takes the lock
  | .batchPut keys =>
    ((List.replicate keys readSection ++ (if keys = 0 then [] else [walSection]) ++ [writeSection]).take done).flatten
  | .readKeyRange => ([readSection, manifestSection].take done).flatten
  -- `add_sstable`, `save`, `clear_frozen`, `truncate_upto`, `may_start_compaction`
  | .flush inProgress =>
    locked .flush
      ([manifestSection, manifestSection, writeSection, walSection, mayStartSection inProgress].take done).flatten
  | .mayStartCompaction inProgress => mayStartSection inProgress
  -- `get_level_sstables`, `add_sstable`, and a `remove_sstable` for each table; the flag
  -- is set at first and taken back in any case
  | .compact level0 =>
    ((stateSection :: List.replicate (level0 + 2) manifestSection).take done ++ [stateSection]).flatten

/-! ## Their order -/

/-- Code that may stand where only locks of a rank below the bound are held. -/
abbrev BalancedAt (bound : Nat) (code : LockCode) : Prop :=
  Balanced Lock.rank MemTable.LockPc.Entry bound code

/-- `with self._lock` of the log. -/
theorem balanced_walSection {bound : Nat} (h : bound ≤ 2) : BalancedAt bound walSection :=
  Balanced.locked h Balanced.nil

/-- `with self._lock` of the manifest. -/
theorem balanced_manifestSection {bound : Nat} (h : bound ≤ 2) : BalancedAt bound manifestSection :=
  Balanced.locked h Balanced.nil

/-- The read lock of the memtable stands last in the order, so it may be taken under any other. -/
theorem balanced_readSection {bound : Nat} : BalancedAt bound readSection := Balanced.inside .read

/-- So may its write lock. -/
theorem balanced_writeSection {bound : Nat} : BalancedAt bound writeSection := Balanced.inside .write

/-- `with self._state_lock` of the compaction manager. -/
theorem balanced_stateSection {bound : Nat} (h : bound ≤ 1) : BalancedAt bound stateSection :=
  Balanced.locked h Balanced.nil

/-- `may_start_compaction` reads the manifest within that lock. -/
theorem balanced_mayStartSection {bound : Nat} (h : bound ≤ 1) (inProgress : Bool) :
    BalancedAt bound (mayStartSection inProgress) := by
  refine Balanced.locked h ?_
  cases inProgress with
  | true => exact Balanced.nil
  | false => exact balanced_manifestSection le_rfl

/-- Sections one after the other, up to some point. -/
theorem balanced_take {bound : Nat} {sections : List LockCode} (h : ∀ code ∈ sections, BalancedAt bound code)
    (done : Nat) : BalancedAt bound (sections.take done).flatten :=
  Balanced.flatten fun code hcode => h code (List.mem_of_mem_take hcode)

/-- Every entry point takes its locks in their order. -/
theorem balanced_code (operation : Operation) (done : Nat) : BalancedAt 0 (operation.code done) := by
  cases operation with
  | put =>
    refine balanced_take (List.forall_mem_cons.mpr ⟨?_, List.forall_mem_singleton.mpr ?_⟩) done
    · exact balanced_walSection (Nat.zero_le _)
    · exact balanced_writeSection
  | get | readKeyRange =>
    refine balanced_take (List.forall_mem_cons.mpr ⟨?_, List.forall_mem_singleton.mpr ?_⟩) done
    · exact balanced_readSection
    · exact balanced_manifestSection (Nat.zero_le _)
  | delete =>
    refine balanced_take (List.forall_mem_cons.mpr ⟨?_, List.forall_mem_cons.mpr
      ⟨balanced_writeSection, List.forall_mem_singleton.mpr balanced_writeSection⟩⟩) done
    exact balanced_walSection (Nat.zero_le _)
  | batchPut keys =>
    refine balanced_take ?_ done
    intro code hcode
    rcases List.mem_append.mp hcode with hcode | hcode
    · rcases List.mem_append.mp hcode with hcode | hcode
      · rw [List.eq_of_mem_replicate hcode]
        exact balanced_readSection
      · split at hcode
        · cases hcode
        · rw [List.mem_singleton.mp hcode]
          exact balanced_walSection (Nat.zero_le _)
    · rw [List.mem_singleton.mp hcode]
      exact balanced_writeSection
  | flush inProgress =>
    refine Balanced.locked (Nat.zero_le _) (balanced_take ?_ done)
    have hmanifest : BalancedAt 1 manifestSection := balanced_manifestSection one_le_two
    have hwal : BalancedAt 1 walSection := balanced_walSection one_le_two
    intro code hcode
    rcases List.mem_cons.mp hcode with rfl | hcode
    · exact hmanifest
    rcases List.mem_cons.mp hcode with rfl | hcode
    · exact hmanifest
    rcases List.mem_cons.mp hcode with rfl | hcode
    · exact balanced_writeSection
    rcases List.mem_cons.mp hcode with rfl | hcode
    · exact hwal
    rw [List.mem_singleton.mp hcode]
    exact balanced_mayStartSection le_rfl inProgress
  | mayStartCompaction inProgress => exact balanced_mayStartSection (Nat.zero_le _) inProgress
  | compact level0 =>
    have hstate : BalancedAt 0 stateSection := balanced_stateSection (Nat.zero_le _)
    refine Balanced.flatten fun code hcode => ?_
    rcases List.mem_append.mp hcode with hcode | hcode
    · rcases List.mem_cons.mp (List.mem_of_mem_take hcode) with rfl | hcode
      · exact hstate
      · rw [List.eq_of_mem_replicate hcode]
        exact balanced_manifestSection (Nat.zero_le _)
    · rw [List.mem_singleton.mp hcode]
      exact hstate

/-! ## Threads -/

/-- The locks of an engine and the threads that use it. -/
abbrev LockConfig (ι : Type) := Threads Lock MemTable.Locks MemTable.LockPc ι

/-- A thread that has finished begins a call, or a thread takes its next step. -/
inductive LockAction (ι : Type) where
  | call (t : ι) (operation : Operation) (done : Nat)
  | step (t : ι)

variable {ι : Type} [DecidableEq ι]

/-- An action that is not possible changes nothing. -/
def lockAct (c : LockConfig ι) : LockAction ι → LockConfig ι
  | .call t operation done => if c.code t = [] then c.continued t (operation.code done) else c
  | .step t => (c.next MemTable.Locks.step t).getD c

/-- The invariant of the engine's locks. -/
abbrev LockInv (c : LockConfig ι) : Prop :=
  Threads.Inv Lock.rank MemTable.LockPc.Entry MemTable.SomeInv c

/-- One step of any thread keeps what the locks say. -/
theorem lockInv_lockAct {c : LockConfig ι} (h : LockInv c) (a : LockAction ι) : LockInv (lockAct c a) := by
  cases a with
  | call t operation done =>
    rw [lockAct]
    split
    · next ht => exact Threads.inv_begin MemTable.safe h ht (balanced_code operation done)
    · exact h
  | step t =>
    rw [lockAct]
    cases hnext : c.next MemTable.Locks.step t with
    | none => exact h
    | some c' => exact Threads.inv_next MemTable.safe h hnext

/-- So does any run. -/
theorem lockInv_run {c : LockConfig ι} (h : LockInv c) (as : List (LockAction ι)) :
    LockInv (Runs.run lockAct c as) := by
  induction as generalizing c with
  | nil => exact h
  | cons a as ih => exact ih (lockInv_lockAct h a)

/-- **No deadlock**: in every state that any number of threads reach, with any calls cut
short anywhere, some thread can go on unless all have finished. -/
theorem exists_next_run (as : List (LockAction ι)) (t : ι)
    (ht : (Runs.run lockAct (Threads.start .init) as).code t ≠ []) :
    ∃ u, ((Runs.run lockAct (Threads.start .init) as).next MemTable.Locks.step u).isSome := by
  have hrank : ∀ l : Lock, l.rank ≤ 2 := by
    intro l
    cases l <;> decide
  exact Threads.exists_next MemTable.safe hrank
    (lockInv_run (Threads.inv_start MemTable.someInv_start) as) ht

/-- A reader that waits, with `_read_lock`, for the writer: both need the memtable, and the
writer goes on. -/
theorem exists_next_run_waiting :
    let c := Runs.run lockAct (Threads.start .init) [.call 1 .put 2, .step 1, .step 1, .step 1,
      .call 2 .get 2, .step 2, .step 2, .step 2]
    c.next MemTable.Locks.step 2 = none ∧ ∃ u : Nat, (c.next MemTable.Locks.step u).isSome := by
  constructor
  · exact Option.isNone_iff_eq_none.mp (by decide +kernel)
  · exact exists_next_run _ 2 (by decide +kernel)

end LSMStorageEngine

end Logvine
