import Logvine.Base.LockOrder
import Logvine.Base.Runs

/-!
# The memtable's read-write lock

A reader counts itself under `_read_lock`; the first one in takes `_write_lock` for all
readers and the last one out, which need not be the same, gives it back. A writer takes
`_write_lock`. Each `acquire`, each `release` and each access to `_read_count` is a step,
and the steps of any number of threads come in any order.

- `Locks.step`: the next step of a thread at a point of one of the four helpers;
- `Inv`: the invariant; it names the thread that has `_read_lock` and who has
  `_write_lock`: nobody, the readers together, or one writer;
- `excludes_run`: in every state reached readers and writers exclude each other, the
  count is right and no lock is released that nobody has;
- `safe`: while some thread is inside, some thread can go on.

The helpers are `memtable.py`, 41–63. `threading.Lock` has no owner, so the last reader may
give back what another thread took; a mutex that belongs to a thread would not do for the
model.
-/

namespace Logvine

open LockOrder

namespace MemTable

/-- The two locks of a memtable (`true`: taken) and `_read_count`. -/
structure Locks where
  readLock : Bool
  writeLock : Bool
  readCount : Int
deriving DecidableEq, Repr

/-- The point of the helpers a thread is at: what it does next. -/
inductive LockPc where
  -- `_acquire_read`
  | acquireRead
  | countIn
  | testFirst
  | blockWriters
  | admitReaders
  -- the critical section of a reader; `_release_read` begins with `_read_lock.acquire()`
  | reading
  | countOut
  | testLast
  | admitWriters
  | leave
  -- `_acquire_write`, and the critical section, up to `_release_write`
  | acquireWrite
  | writing
  -- a lock that was not taken has been released
  | raised
deriving DecidableEq, Repr

namespace Locks

/-- The locks of a new memtable. -/
def init : Locks := ⟨false, false, 0⟩

/-- The next step of a thread, and the point it is at then (`none`: it has returned);
`none` while it has to wait. -/
def step (s : Locks) : LockPc → Option (Locks × Option LockPc)
  | .acquireRead => if s.readLock then none else some ({ s with readLock := true }, some .countIn)
  | .countIn => some ({ s with readCount := s.readCount + 1 }, some .testFirst)
  | .testFirst => some (s, some (if s.readCount = 1 then .blockWriters else .admitReaders))
  | .blockWriters => if s.writeLock then none else some ({ s with writeLock := true }, some .admitReaders)
  | .admitReaders =>
    if s.readLock then some ({ s with readLock := false }, some .reading) else some (s, some .raised)
  | .reading => if s.readLock then none else some ({ s with readLock := true }, some .countOut)
  | .countOut => some ({ s with readCount := s.readCount - 1 }, some .testLast)
  | .testLast => some (s, some (if s.readCount = 0 then .admitWriters else .leave))
  | .admitWriters =>
    if s.writeLock then some ({ s with writeLock := false }, some .leave) else some (s, some .raised)
  | .leave => if s.readLock then some ({ s with readLock := false }, none) else some (s, some .raised)
  | .acquireWrite => if s.writeLock then none else some ({ s with writeLock := true }, some .writing)
  | .writing => if s.writeLock then some ({ s with writeLock := false }, none) else some (s, some .raised)
  | .raised => none

end Locks

namespace LockPc

/-- The first point of a section. -/
inductive Entry : LockPc → Prop
  | read : Entry .acquireRead
  | write : Entry .acquireWrite

/-- The thread has `_read_lock`. -/
def hasReadLock : Option LockPc → Bool
  | some .countIn | some .testFirst | some .blockWriters | some .admitReaders | some .countOut
  | some .testLast | some .admitWriters | some .leave => true
  | _ => false

/-- The thread is counted as a reader. -/
def counted : Option LockPc → Bool
  | some .testFirst | some .blockWriters | some .admitReaders | some .reading | some .countOut => true
  | _ => false

end LockPc

open LockPc

/-! ## The invariant -/

variable {ι : Type} [DecidableEq ι]

/-- Who has `_write_lock`. -/
inductive Holder (ι : Type) where
  | nobody
  | readers
  | writer (t : ι)

/-- The readers have `_write_lock` when some are counted, but for the time that the first
one in, or the last one out, has not yet seen to it. -/
def Gate (readCount : Int) (byReaders : Prop) : Option LockPc → Prop
  | some .testFirst => byReaders ↔ 1 < readCount
  | some .blockWriters => readCount = 1 ∧ ¬byReaders
  | some .testLast => byReaders
  | some .admitWriters => readCount = 0 ∧ byReaders
  | _ => byReaders ↔ 0 < readCount

/-- What holds in every state, for the thread with `_read_lock` and the holder of
`_write_lock`. -/
structure Inv (c : Shared Locks LockPc ι) (inner : Option ι) (outer : Holder ι) : Prop where
  hasReadLock : ∀ t, hasReadLock (c.pc t) = true ↔ inner = some t
  writing : ∀ t, c.pc t = some .writing ↔ outer = .writer t
  readLock : c.state.readLock = inner.isSome
  writeLock : c.state.writeLock = true ↔ outer ≠ .nobody
  finite : {t | counted (c.pc t)}.Finite
  readCount : c.state.readCount = {t | counted (c.pc t)}.ncard
  gate : Gate c.state.readCount (outer = .readers) (inner.elim none c.pc)
  raised : ∀ t, c.pc t ≠ some .raised

variable {c : Shared Locks LockPc ι} {inner : Option ι} {outer : Holder ι} {t : ι}

omit [DecidableEq ι] in
theorem counted_le (h : Inv c inner outer) (t : ι) : ((counted (c.pc t)).toNat : Int) ≤ c.state.readCount := by
  rw [h.readCount, Shared.ncard_split h.finite t]
  omega

omit [DecidableEq ι] in
/-- Two threads that are counted. -/
theorem two_le_readCount (h : Inv c inner outer) {u : ι} (hne : t ≠ u) (ht : counted (c.pc t) = true)
    (hu : counted (c.pc u) = true) : 2 ≤ c.state.readCount := by
  have hsub : ({t, u} : Set ι) ⊆ {t | counted (c.pc t)} := by
    rintro v (rfl | rfl)
    · exact ht
    · exact hu
  have hle := Set.ncard_le_ncard hsub h.finite
  rw [Set.ncard_pair hne] at hle
  rw [h.readCount]
  exact_mod_cast hle

namespace Inv

/-- What is to be shown when one thread moves. -/
theorem moved (h : Inv c inner outer) {s : Locks} {p : Option LockPc} {inner' : Option ι} {outer' : Holder ι}
    (hinner : ∀ u, u ≠ t → (inner' = some u ↔ inner = some u))
    (hinner_t : LockPc.hasReadLock p = true ↔ inner' = some t)
    (houter : ∀ u, u ≠ t → (outer' = .writer u ↔ outer = .writer u))
    (houter_t : p = some .writing ↔ outer' = .writer t)
    (hread : s.readLock = inner'.isSome) (hwrite : s.writeLock = true ↔ outer' ≠ .nobody)
    (hcount : s.readCount + (counted (c.pc t)).toNat = c.state.readCount + (counted p).toNat)
    (hgate : Gate s.readCount (outer' = .readers) (inner'.elim none (Function.update c.pc t p)))
    (hraised : p ≠ some .raised) : Inv (c.moved t s p) inner' outer' := by
  have hupdate : ∀ {P : ι → Option LockPc → Prop}, (∀ u, u ≠ t → P u (c.pc u)) → P t p →
      ∀ u, P u (Function.update c.pc t p u) := by
    intro P hothers hp u
    by_cases hu : u = t
    · subst hu
      rwa [Function.update_self]
    · rw [Function.update_of_ne hu]
      exact hothers u hu
  refine ⟨?_, ?_, hread, hwrite, Shared.finite_update h.finite t p, ?_, hgate, ?_⟩
  · exact hupdate (P := fun u p => LockPc.hasReadLock p = true ↔ inner' = some u)
      (fun u hu => (h.hasReadLock u).trans (hinner u hu).symm) hinner_t
  · exact hupdate (P := fun u p => p = some .writing ↔ outer' = .writer u)
      (fun u hu => (h.writing u).trans (houter u hu).symm) houter_t
  · have hncard := Shared.ncard_update h.finite t p
    have hbefore := h.readCount
    show s.readCount = ({u | counted (Function.update c.pc t p u)}.ncard : Int)
    omega
  · exact hupdate (P := fun _ p => p ≠ some .raised) (fun u _ => h.raised u) hraised

/-- The thread with `_read_lock` keeps it. -/
theorem moved_inside (h : Inv c inner outer) (ht : LockPc.hasReadLock (c.pc t) = true) {s : Locks}
    {p : LockPc} {outer' : Holder ι} (hp : LockPc.hasReadLock (some p) = true) (hread : s.readLock = true)
    (houter : ∀ u, outer' = .writer u ↔ outer = .writer u) (hwrite : s.writeLock = true ↔ outer' ≠ .nobody)
    (hcount : s.readCount + (counted (c.pc t)).toNat = c.state.readCount + (counted (some p)).toNat)
    (hgate : Gate s.readCount (outer' = .readers) (some p)) :
    Inv (c.moved t s (some p)) (some t) outer' := by
  have hinner : inner = some t := (h.hasReadLock t).mp ht
  refine h.moved ?_ (iff_of_true hp rfl) (fun u _ => houter u) ?_ hread hwrite hcount ?_ ?_
  · intro u _
    rw [hinner]
  · rw [houter t, ← h.writing t]
    refine iff_of_false ?_ ?_
    · rintro ⟨⟩
      cases hp
    · intro hpc
      rw [hpc] at ht
      cases ht
  · rwa [Option.elim_some, Function.update_self]
  · rintro ⟨⟩
    cases hp

/-- A thread takes `_read_lock`. -/
theorem moved_in (h : Inv c inner outer) (hfree : c.state.readLock = false) {p : LockPc}
    (hp : LockPc.hasReadLock (some p) = true) (hpc : c.pc t ≠ some .writing)
    (hcount : counted (c.pc t) = counted (some p))
    (hgate : (outer = .readers ↔ 0 < c.state.readCount) → Gate c.state.readCount (outer = .readers) (some p)) :
    Inv (c.moved t { c.state with readLock := true } (some p)) (some t) outer := by
  obtain rfl : inner = none := by
    rw [h.readLock] at hfree
    exact Option.isNone_iff_eq_none.mp (by rw [← Option.not_isSome, hfree]; rfl)
  refine h.moved ?_ (iff_of_true hp rfl) (fun u _ => Iff.rfl) ?_ rfl h.writeLock ?_ ?_ ?_
  · intro u hu
    exact iff_of_false (fun heq => hu (Option.some.inj heq).symm) (Option.some_ne_none u).symm
  · rw [← h.writing t]
    refine iff_of_false ?_ hpc
    rintro ⟨⟩
    cases hp
  · rw [hcount]
  · rw [Option.elim_some, Function.update_self]
    exact hgate h.gate
  · rintro ⟨⟩
    cases hp

/-- The thread with `_read_lock` gives it back. -/
theorem moved_out (h : Inv c inner outer) (ht : LockPc.hasReadLock (c.pc t) = true) {p : Option LockPc}
    (hp : p = none ∨ p = some .reading) (hcount : counted (c.pc t) = counted p)
    (hgate : Gate c.state.readCount (outer = .readers) (c.pc t) → (outer = .readers ↔ 0 < c.state.readCount)) :
    Inv (c.moved t { c.state with readLock := false } p) none outer := by
  obtain rfl : inner = some t := (h.hasReadLock t).mp ht
  refine h.moved ?_ ?_ (fun u _ => Iff.rfl) ?_ rfl h.writeLock ?_ (hgate h.gate) ?_
  · intro u hu
    exact iff_of_false (Option.some_ne_none u).symm fun heq => hu (Option.some.inj heq).symm
  · refine iff_of_false ?_ (Option.some_ne_none t).symm
    rcases hp with rfl | rfl <;> exact Bool.false_ne_true
  · rw [← h.writing t]
    refine iff_of_false ?_ ?_
    · rcases hp with rfl | rfl
      · exact (Option.some_ne_none _).symm
      · rintro ⟨⟩
    · intro hpc
      rw [hpc] at ht
      cases ht
  · rw [hcount]
  · rcases hp with rfl | rfl
    · exact (Option.some_ne_none _).symm
    · rintro ⟨⟩

/-- A thread that has not `_read_lock` takes or gives back `_write_lock`. -/
theorem moved_writer (h : Inv c inner outer) (ht : LockPc.hasReadLock (c.pc t) = false) {p : Option LockPc}
    (hp : LockPc.hasReadLock p = false) (hcount : counted (c.pc t) = counted p) {writeLock : Bool}
    {outer' : Holder ι} (houter : ∀ u, u ≠ t → (outer' = .writer u ↔ outer = .writer u))
    (houter_t : p = some .writing ↔ outer' = .writer t) (hwrite : writeLock = true ↔ outer' ≠ .nobody)
    (hreaders : outer' = .readers ↔ outer = .readers) (hraised : p ≠ some .raised) :
    Inv (c.moved t { c.state with writeLock := writeLock } p) inner outer' := by
  have hinner : inner ≠ some t := by
    rw [Ne, ← h.hasReadLock t, ht]
    exact Bool.false_ne_true
  refine h.moved (fun u _ => Iff.rfl) ?_ houter houter_t h.readLock hwrite ?_ ?_ hraised
  · rw [hp]
    exact iff_of_false Bool.false_ne_true hinner
  · rw [hcount]
  · have hgate := h.gate
    rw [hreaders]
    cases inner with
    | none => exact hgate
    | some u =>
      rw [Option.elim_some] at hgate ⊢
      rwa [Function.update_of_ne fun heq => hinner (congrArg some heq)]

/-! ### The steps of the helpers -/

omit [DecidableEq ι] in
theorem readLock_of_has (h : Inv c inner outer) (ht : LockPc.hasReadLock (c.pc t) = true) :
    c.state.readLock = true := by
  rw [h.readLock, (h.hasReadLock t).mp ht]
  rfl

omit [DecidableEq ι] in
theorem gate_of_has (h : Inv c inner outer) (ht : LockPc.hasReadLock (c.pc t) = true) :
    Gate c.state.readCount (outer = .readers) (c.pc t) := by
  have hgate := h.gate
  rwa [(h.hasReadLock t).mp ht] at hgate

/-- A thread waits for `_read_lock`, as it comes in or as it goes out. -/
theorem step_acquireReadLock (h : Inv c inner outer) {p : LockPc} (hp : c.pc t = some p)
    (hkind : p = .acquireRead ∨ p = .reading) {s : Locks} {p' : Option LockPc}
    (hstep : c.state.step p = some (s, p')) : ∃ inner' outer', Inv (c.moved t s p') inner' outer' := by
  have hcount : counted (c.pc t) = counted (some p) := by rw [hp]
  have hpc : c.pc t ≠ some .writing := by
    rw [hp]
    rcases hkind with rfl | rfl <;> rintro ⟨⟩
  rcases hkind with rfl | rfl
  all_goals
    rw [Locks.step] at hstep
    split at hstep
    · cases hstep
    · next hfree =>
      cases hstep
      exact ⟨_, _, h.moved_in (Bool.eq_false_iff.mpr hfree) rfl hpc hcount id⟩

/-- A thread gives `_read_lock` back, let in or gone out. -/
theorem step_releaseReadLock (h : Inv c inner outer) {p : LockPc} (hp : c.pc t = some p)
    (hkind : p = .admitReaders ∨ p = .leave) {s : Locks} {p' : Option LockPc}
    (hstep : c.state.step p = some (s, p')) : ∃ inner' outer', Inv (c.moved t s p') inner' outer' := by
  have hpc : LockPc.hasReadLock (c.pc t) = LockPc.hasReadLock (some p) := by rw [hp]
  have hcount : counted (c.pc t) = counted (some p) := by rw [hp]
  rcases hkind with rfl | rfl
  · rw [Locks.step, if_pos (h.readLock_of_has hpc)] at hstep
    cases hstep
    refine ⟨_, _, h.moved_out hpc (.inr rfl) hcount ?_⟩
    rw [hp]
    exact id
  · rw [Locks.step, if_pos (h.readLock_of_has hpc)] at hstep
    cases hstep
    refine ⟨_, _, h.moved_out hpc (.inl rfl) hcount ?_⟩
    rw [hp]
    exact id

/-- A reader counts itself. -/
theorem step_countIn (h : Inv c inner outer) (hp : c.pc t = some .countIn) {s : Locks} {p' : Option LockPc}
    (hstep : c.state.step .countIn = some (s, p')) : ∃ inner' outer', Inv (c.moved t s p') inner' outer' := by
  have hpc : LockPc.hasReadLock (c.pc t) = true := by rw [hp]; rfl
  have hreaders : outer = .readers ↔ 0 < c.state.readCount := by
    have hgate := h.gate_of_has hpc
    rwa [hp] at hgate
  cases hstep
  refine ⟨_, _, h.moved_inside hpc rfl (h.readLock_of_has hpc) (fun _ => Iff.rfl) h.writeLock ?_ ?_⟩
  · rw [hp]
    exact add_zero _
  · show outer = .readers ↔ 1 < c.state.readCount + 1
    rw [hreaders]
    omega

/-- A reader that goes out takes itself off the count. -/
theorem step_countOut (h : Inv c inner outer) (hp : c.pc t = some .countOut) {s : Locks} {p' : Option LockPc}
    (hstep : c.state.step .countOut = some (s, p')) : ∃ inner' outer', Inv (c.moved t s p') inner' outer' := by
  have hpc : LockPc.hasReadLock (c.pc t) = true := by rw [hp]; rfl
  have hreaders : outer = .readers ↔ 0 < c.state.readCount := by
    have hgate := h.gate_of_has hpc
    rwa [hp] at hgate
  have hcounted : 1 ≤ c.state.readCount := by
    have hle := counted_le h t
    rwa [hp] at hle
  cases hstep
  refine ⟨_, _, h.moved_inside hpc rfl (h.readLock_of_has hpc) (fun _ => Iff.rfl) h.writeLock ?_ ?_⟩
  · rw [hp]
    show c.state.readCount - 1 + 1 = c.state.readCount + 0
    omega
  · show outer = .readers
    rw [hreaders]
    omega

/-- A reader looks whether it is the first one in. -/
theorem step_testFirst (h : Inv c inner outer) (hp : c.pc t = some .testFirst) {s : Locks} {p' : Option LockPc}
    (hstep : c.state.step .testFirst = some (s, p')) : ∃ inner' outer', Inv (c.moved t s p') inner' outer' := by
  have hpc : LockPc.hasReadLock (c.pc t) = true := by rw [hp]; rfl
  have hreaders : outer = .readers ↔ 1 < c.state.readCount := by
    have hgate := h.gate_of_has hpc
    rwa [hp] at hgate
  have hcounted : 1 ≤ c.state.readCount := by
    have hle := counted_le h t
    rwa [hp] at hle
  cases hstep
  by_cases hone : c.state.readCount = 1
  · rw [if_pos hone]
    refine ⟨_, _, h.moved_inside hpc rfl (h.readLock_of_has hpc) (fun _ => Iff.rfl) h.writeLock ?_ ⟨hone, ?_⟩⟩
    · rw [hp]
      rfl
    · rw [hreaders, hone]
      exact lt_irrefl _
  · rw [if_neg hone]
    refine ⟨_, _, h.moved_inside hpc rfl (h.readLock_of_has hpc) (fun _ => Iff.rfl) h.writeLock ?_ ?_⟩
    · rw [hp]
      rfl
    · show outer = .readers ↔ 0 < c.state.readCount
      rw [hreaders]
      omega

/-- A reader that goes out looks whether it was the last one. -/
theorem step_testLast (h : Inv c inner outer) (hp : c.pc t = some .testLast) {s : Locks} {p' : Option LockPc}
    (hstep : c.state.step .testLast = some (s, p')) : ∃ inner' outer', Inv (c.moved t s p') inner' outer' := by
  have hpc : LockPc.hasReadLock (c.pc t) = true := by rw [hp]; rfl
  have hreaders : outer = .readers := by
    have hgate := h.gate_of_has hpc
    rwa [hp] at hgate
  have hcounted : 0 ≤ c.state.readCount := by
    have hle := counted_le h t
    rwa [hp] at hle
  cases hstep
  by_cases hzero : c.state.readCount = 0
  · rw [if_pos hzero]
    refine ⟨_, _, h.moved_inside hpc rfl (h.readLock_of_has hpc) (fun _ => Iff.rfl) h.writeLock ?_
      ⟨hzero, hreaders⟩⟩
    rw [hp]
    rfl
  · rw [if_neg hzero]
    refine ⟨_, _, h.moved_inside hpc rfl (h.readLock_of_has hpc) (fun _ => Iff.rfl) h.writeLock ?_ ?_⟩
    · rw [hp]
      rfl
    · show outer = .readers ↔ 0 < c.state.readCount
      exact iff_of_true hreaders (by omega)

/-- The first reader in takes `_write_lock` for all of them. -/
theorem step_blockWriters (h : Inv c inner outer) (hp : c.pc t = some .blockWriters) {s : Locks}
    {p' : Option LockPc} (hstep : c.state.step .blockWriters = some (s, p')) :
    ∃ inner' outer', Inv (c.moved t s p') inner' outer' := by
  have hpc : LockPc.hasReadLock (c.pc t) = true := by rw [hp]; rfl
  have hone : c.state.readCount = 1 := by
    have hgate := h.gate_of_has hpc
    rw [hp] at hgate
    exact hgate.1
  rw [Locks.step] at hstep
  split at hstep
  · cases hstep
  · next hfree =>
    cases hstep
    obtain rfl : outer = .nobody := by
      by_contra houter
      exact hfree (h.writeLock.mpr houter)
    refine ⟨_, .readers, h.moved_inside hpc rfl (h.readLock_of_has hpc) ?_ ?_ ?_ ?_⟩
    · intro u
      exact iff_of_false (by simp) (by simp)
    · exact iff_of_true rfl (by simp)
    · rw [hp]
      rfl
    · show Holder.readers = .readers ↔ 0 < c.state.readCount
      rw [hone]
      exact iff_of_true rfl one_pos

/-- The last reader out gives `_write_lock` back, which another one may have taken. -/
theorem step_admitWriters (h : Inv c inner outer) (hp : c.pc t = some .admitWriters) {s : Locks}
    {p' : Option LockPc} (hstep : c.state.step .admitWriters = some (s, p')) :
    ∃ inner' outer', Inv (c.moved t s p') inner' outer' := by
  have hpc : LockPc.hasReadLock (c.pc t) = true := by rw [hp]; rfl
  obtain ⟨hzero, rfl⟩ : c.state.readCount = 0 ∧ outer = .readers := by
    have hgate := h.gate_of_has hpc
    rwa [hp] at hgate
  have hwrite : c.state.writeLock = true := h.writeLock.mpr (by simp)
  rw [Locks.step, if_pos hwrite] at hstep
  cases hstep
  refine ⟨_, .nobody, h.moved_inside hpc rfl (h.readLock_of_has hpc) ?_ ?_ ?_ ?_⟩
  · intro u
    exact iff_of_false (by simp) (by simp)
  · exact iff_of_false Bool.false_ne_true fun hne => hne rfl
  · rw [hp]
    rfl
  · show Holder.nobody = .readers ↔ 0 < c.state.readCount
    rw [hzero]
    exact iff_of_false (by simp) (lt_irrefl _)

/-- A writer comes in. -/
theorem step_acquireWrite (h : Inv c inner outer) (hp : c.pc t = some .acquireWrite) {s : Locks}
    {p' : Option LockPc} (hstep : c.state.step .acquireWrite = some (s, p')) :
    ∃ inner' outer', Inv (c.moved t s p') inner' outer' := by
  have hpc : LockPc.hasReadLock (c.pc t) = false := by rw [hp]; rfl
  have hcount : counted (c.pc t) = counted (some .acquireWrite) := by rw [hp]
  rw [Locks.step] at hstep
  split at hstep
  · cases hstep
  · next hfree =>
    cases hstep
    obtain rfl : outer = .nobody := by
      by_contra houter
      exact hfree (h.writeLock.mpr houter)
    refine ⟨inner, .writer t, h.moved_writer (p := some .writing) hpc rfl hcount ?_ ?_ ?_ ?_ ?_⟩
    · intro u hu
      exact iff_of_false (by simp [hu.symm]) (by simp)
    · exact iff_of_true rfl rfl
    · exact iff_of_true rfl (by simp)
    · exact iff_of_false (by simp) (by simp)
    · rintro ⟨⟩

/-- A writer goes out: the lock it releases is its own. -/
theorem step_writing (h : Inv c inner outer) (hp : c.pc t = some .writing) {s : Locks} {p' : Option LockPc}
    (hstep : c.state.step .writing = some (s, p')) : ∃ inner' outer', Inv (c.moved t s p') inner' outer' := by
  have hpc : LockPc.hasReadLock (c.pc t) = false := by rw [hp]; rfl
  have hcount : counted (c.pc t) = counted (some .writing) := by rw [hp]
  have hwriter := (h.writing t).mp hp
  subst hwriter
  have hwrite : c.state.writeLock = true := h.writeLock.mpr (by simp)
  rw [Locks.step, if_pos hwrite] at hstep
  cases hstep
  refine ⟨inner, .nobody, h.moved_writer (p := none) hpc rfl hcount ?_ ?_ ?_ ?_ ?_⟩
  · intro u hu
    exact iff_of_false (by simp) (by simp [hu.symm])
  · exact iff_of_false (by simp) (by simp)
  · exact iff_of_false Bool.false_ne_true fun hne => hne rfl
  · exact iff_of_false (by simp) (by simp)
  · exact (Option.some_ne_none _).symm

/-- **A step of a thread**, from each point. -/
theorem step (h : Inv c inner outer) {p : LockPc} (hp : c.pc t = some p) {s : Locks} {p' : Option LockPc}
    (hstep : c.state.step p = some (s, p')) : ∃ inner' outer', Inv (c.moved t s p') inner' outer' := by
  cases p with
  | acquireRead => exact h.step_acquireReadLock hp (.inl rfl) hstep
  | countIn => exact h.step_countIn hp hstep
  | testFirst => exact h.step_testFirst hp hstep
  | blockWriters => exact h.step_blockWriters hp hstep
  | admitReaders => exact h.step_releaseReadLock hp (.inl rfl) hstep
  | reading => exact h.step_acquireReadLock hp (.inr rfl) hstep
  | countOut => exact h.step_countOut hp hstep
  | testLast => exact h.step_testLast hp hstep
  | admitWriters => exact h.step_admitWriters hp hstep
  | leave => exact h.step_releaseReadLock hp (.inr rfl) hstep
  | acquireWrite => exact h.step_acquireWrite hp hstep
  | writing => exact h.step_writing hp hstep
  | raised => cases hstep

end Inv

/-! ## Some thread inside can go on -/

/-- The invariant, for whoever has the locks. -/
def SomeInv (c : Shared Locks LockPc ι) : Prop := ∃ inner outer, Inv c inner outer

theorem next_isSome {p : LockPc} (hp : c.pc t = some p) (hstep : (c.state.step p).isSome) :
    (c.next Locks.step t).isSome := by
  obtain ⟨moved, hmoved⟩ := Option.isSome_iff_exists.mp hstep
  rw [Shared.next, hp, Option.bind_some, hmoved]
  rfl

/-- A writer in its critical section. -/
theorem next_writing (hp : c.pc t = some .writing) : (c.next Locks.step t).isSome := by
  refine next_isSome hp ?_
  rw [Locks.step]
  split <;> rfl

/-- The thread with `_read_lock`, unless it waits as the first reader for a writer, who
can then go on itself. -/
theorem exists_next_inside (h : Inv c inner outer) (ht : LockPc.hasReadLock (c.pc t) = true) :
    ∃ u, (c.next Locks.step u).isSome := by
  have hgate := h.gate_of_has ht
  cases hp : c.pc t with
  | none =>
    rw [hp] at ht
    cases ht
  | some p =>
    rw [hp] at ht hgate
    cases p with
    | blockWriters =>
      by_cases hwrite : c.state.writeLock = true
      · have houter := h.writeLock.mp hwrite
        cases outer with
        | nobody => exact absurd rfl houter
        | readers => exact absurd rfl hgate.2
        | writer u => exact ⟨u, next_writing ((h.writing u).mpr rfl)⟩
      · refine ⟨t, next_isSome hp ?_⟩
        rw [Locks.step, if_neg hwrite]
        rfl
    | countIn | testFirst | countOut | testLast => exact ⟨t, next_isSome hp rfl⟩
    | admitReaders | admitWriters | leave =>
      refine ⟨t, next_isSome hp ?_⟩
      rw [Locks.step]
      split <;> rfl
    | acquireRead | reading | acquireWrite | writing | raised => cases ht

omit [DecidableEq ι] in
/-- A reader that has not `_read_lock` is in its critical section. -/
theorem reading_of_counted {p : Option LockPc} (hcounted : counted p = true)
    (hread : LockPc.hasReadLock p = false) : p = some .reading := by
  cases p with
  | none => cases hcounted
  | some p =>
    cases p with
    | reading => rfl
    | testFirst | blockWriters | admitReaders | countOut => cases hread
    | acquireRead | countIn | testLast | admitWriters | leave | acquireWrite | writing | raised =>
      cases hcounted

/-- **While some thread is inside**, some thread can go on. -/
theorem exists_next (h : Inv c inner outer) (ht : c.pc t ≠ none) : ∃ u, (c.next Locks.step u).isSome := by
  cases inner with
  | some u => exact exists_next_inside h ((h.hasReadLock u).mpr rfl)
  | none =>
    have hread : c.state.readLock = false := h.readLock
    have houtside : ∀ u, LockPc.hasReadLock (c.pc u) = false := by
      intro u
      rw [Bool.eq_false_iff, Ne, h.hasReadLock u]
      exact (Option.some_ne_none u).symm
    cases outer with
    | writer u => exact ⟨u, next_writing ((h.writing u).mpr rfl)⟩
    | readers =>
      -- some reader is counted, and can take `_read_lock`
      have hpos : 0 < c.state.readCount := h.gate.mp rfl
      rw [h.readCount, Int.natCast_pos, Set.ncard_pos h.finite] at hpos
      obtain ⟨u, hu⟩ := hpos
      refine ⟨u, next_isSome (reading_of_counted hu (houtside u)) ?_⟩
      rw [Locks.step, hread]
      rfl
    | nobody =>
      have hwrite : c.state.writeLock = false := by
        rw [Bool.eq_false_iff, Ne, h.writeLock]
        exact fun hne => hne rfl
      have hout := houtside t
      obtain ⟨p, hp⟩ := Option.ne_none_iff_exists'.mp ht
      refine ⟨t, next_isSome hp ?_⟩
      rw [hp] at hout
      cases p with
      | acquireRead | reading =>
        rw [Locks.step, hread]
        rfl
      | acquireWrite =>
        rw [Locks.step, hwrite]
        rfl
      | writing =>
        rw [Locks.step]
        split <;> rfl
      | raised => exact absurd hp (h.raised t)
      | countIn | testFirst | blockWriters | admitReaders | countOut | testLast | admitWriters | leave =>
        cases hout

omit [DecidableEq ι] in
theorem someInv_start : SomeInv (⟨.init, fun _ => none⟩ : Shared Locks LockPc ι) := by
  have hnobody : {t : ι | counted (none : Option LockPc)} = ∅ := by
    ext t
    exact iff_of_false Bool.false_ne_true (Set.notMem_empty t)
  refine ⟨none, .nobody, ?_, ?_, rfl, ?_, ?_, ?_, ?_, ?_⟩
  · exact fun t => iff_of_false Bool.false_ne_true (Option.some_ne_none t).symm
  · exact fun t => iff_of_false (Option.some_ne_none _).symm (by simp)
  · exact iff_of_false Bool.false_ne_true fun hne => hne rfl
  · rw [hnobody]
    exact Set.finite_empty
  · rw [hnobody, Set.ncard_empty]
    rfl
  · exact iff_of_false (by simp) (lt_irrefl _)
  · exact fun t => (Option.some_ne_none _).symm

theorem someInv_enter (h : SomeInv c) (ht : c.pc t = none) {p : LockPc} (hp : LockPc.Entry p) :
    SomeInv (c.moved t c.state (some p)) := by
  obtain ⟨inner, outer, h⟩ := h
  refine ⟨inner, outer, ?_⟩
  have hout : LockPc.hasReadLock (c.pc t) = false := by rw [ht]; rfl
  have hcount : counted (c.pc t) = false := by rw [ht]; rfl
  have hwriter : outer ≠ .writer t := by
    rw [Ne, ← h.writing t, ht]
    exact (Option.some_ne_none _).symm
  cases hp with
  | read =>
    refine h.moved_writer (p := some .acquireRead) hout rfl hcount (fun u _ => Iff.rfl) ?_ h.writeLock Iff.rfl ?_
    · exact iff_of_false (by simp) hwriter
    · simp
  | write =>
    refine h.moved_writer (p := some .acquireWrite) hout rfl hcount (fun u _ => Iff.rfl) ?_ h.writeLock Iff.rfl ?_
    · exact iff_of_false (by simp) hwriter
    · simp

/-- The lock as a part of larger programs. -/
theorem safe : Shared.Safe Locks.step LockPc.Entry (SomeInv : Shared Locks LockPc ι → Prop) := by
  constructor
  · intro c t p h ht hp
    exact someInv_enter h ht hp
  · rintro c t c' ⟨inner, outer, h⟩ hnext
    obtain ⟨p, s, p', hp, hstep, rfl⟩ := Shared.next_eq_some.mp hnext
    exact h.step hp hstep
  · rintro c t ⟨inner, outer, h⟩ ht
    exact exists_next h ht

/-! ## Every state reached -/

/-- Readers and writers exclude each other, the count is that of the readers, and no
thread has released a lock that was not taken. -/
structure Excludes (c : Shared Locks LockPc ι) : Prop where
  oneWriter : ∀ t u, c.pc t = some .writing → c.pc u = some .writing → t = u
  noReader : ∀ t u, c.pc t = some .writing → c.pc u ≠ some .reading
  finite : {t | counted (c.pc t)}.Finite
  readCount : c.state.readCount = {t | counted (c.pc t)}.ncard
  raised : ∀ t, c.pc t ≠ some .raised

omit [DecidableEq ι] in
/-- While a reader is in its critical section, the readers have `_write_lock`. -/
theorem readers_of_reading (h : Inv c inner outer) (ht : c.pc t = some .reading) : outer = .readers := by
  have hcounted : counted (c.pc t) = true := by rw [ht]; rfl
  have hpos : 1 ≤ c.state.readCount := by
    have hle := counted_le h t
    rwa [hcounted] at hle
  have hgate := h.gate
  cases inner with
  | none => exact hgate.mpr hpos
  | some u =>
    have hu : LockPc.hasReadLock (c.pc u) = true := (h.hasReadLock u).mpr rfl
    have hne : t ≠ u := by
      rintro rfl
      rw [ht] at hu
      cases hu
    -- a reader that is just coming in is not the first
    have htwo := two_le_readCount h hne hcounted
    rw [Option.elim_some] at hgate
    cases hp : c.pc u with
    | none =>
      rw [hp] at hu
      cases hu
    | some p =>
      rw [hp] at hu hgate htwo
      cases p with
      | testFirst => exact hgate.mpr (htwo rfl)
      | blockWriters =>
        have hone : c.state.readCount = 1 := hgate.1
        have := htwo rfl
        omega
      | testLast => exact hgate
      | admitWriters => exact hgate.2
      | countIn | admitReaders | countOut | leave => exact hgate.mpr hpos
      | acquireRead | reading | acquireWrite | writing | raised => cases hu

omit [DecidableEq ι] in
theorem Inv.excludes (h : Inv c inner outer) : Excludes c := by
  refine ⟨?_, ?_, h.finite, h.readCount, h.raised⟩
  · intro t u ht hu
    have htu : Holder.writer t = .writer u := ((h.writing t).mp ht).symm.trans ((h.writing u).mp hu)
    cases htu
    rfl
  · intro t u ht hu
    have houter := readers_of_reading h hu
    rw [(h.writing t).mp ht] at houter
    cases houter

/-- What a thread does next: it begins a section, or takes its next step. -/
inductive LockAction (ι : Type) where
  | acquireRead (t : ι)
  | acquireWrite (t : ι)
  | step (t : ι)

/-- An action that is not possible changes nothing. -/
def lockAct (c : Shared Locks LockPc ι) : LockAction ι → Shared Locks LockPc ι
  | .acquireRead t => if c.pc t = none then c.moved t c.state (some .acquireRead) else c
  | .acquireWrite t => if c.pc t = none then c.moved t c.state (some .acquireWrite) else c
  | .step t => (c.next Locks.step t).getD c

theorem someInv_lockAct (h : SomeInv c) (a : LockAction ι) : SomeInv (lockAct c a) := by
  cases a with
  | acquireRead t =>
    rw [lockAct]
    split
    · next ht => exact someInv_enter h ht .read
    · exact h
  | acquireWrite t =>
    rw [lockAct]
    split
    · next ht => exact someInv_enter h ht .write
    · exact h
  | step t =>
    rw [lockAct]
    cases hnext : c.next Locks.step t with
    | none => exact h
    | some c' => exact safe.next h hnext

theorem someInv_run (h : SomeInv c) (as : List (LockAction ι)) : SomeInv (Runs.run lockAct c as) := by
  induction as generalizing c with
  | nil => exact h
  | cons a as ih => exact ih (someInv_lockAct h a)

/-- **The read-write lock excludes**, in every state that any number of threads reach. -/
theorem excludes_run (as : List (LockAction ι)) :
    Excludes (Runs.run lockAct ⟨.init, fun _ => none⟩ as) := by
  obtain ⟨inner, outer, h⟩ := someInv_run someInv_start as
  exact h.excludes

/-- The first reader in leaves before the second, who gives the lock back. -/
example :
    let c := Runs.run lockAct (⟨.init, fun _ => none⟩ : Shared Locks LockPc Nat)
      (List.flatten [[.acquireRead 1], .replicate 5 (.step 1), [.acquireRead 2], .replicate 4 (.step 2),
        .replicate 4 (.step 1), .replicate 5 (.step 2)])
    c.state = .init ∧ c.pc 1 = none ∧ c.pc 2 = none := by decide +kernel

end MemTable

end Logvine
