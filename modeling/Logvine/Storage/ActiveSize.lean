import Logvine.Base.Runs
import Logvine.Storage.Accounting
import Logvine.Storage.Draining

/-!
# The size of the active buffer in every run

- `exact_runCalls`: whatever is called on a memtable, in whatever order, its count is
  that of the active values;
- `staysBelow_iff`: a put freezes the buffer when it reaches the limit, a delete does
  not look at the limit. An engine that takes puts and deletes stays below the limit
  exactly if no delete takes it there.

`put` of the engine asks `is_full` inside the lock (`engine.py`, 157–160); `delete` goes
through `MemTable.put`, which does not (`engine.py`, 198; `memtable.py`, 131).
-/

namespace Logvine

namespace MemTable

/-! ## Calls on a memtable -/

/-- A call that changes a memtable. A caller that holds the write lock puts several
entries before it releases it (`putAll`). -/
inductive Call where
  | put (key value : Bytes)
  | delete (key : Bytes)
  | putUnlocked (key value : Bytes)
  | putAll (items : List (Bytes × Bytes))
  | rotate
  | clearFrozen
  | setMaxWalOffset (offset : Nat)

/-- Make a call. -/
def Call.run (m : MemTable) : Call → MemTable
  | .put key value => m.put key value
  | .delete key => m.delete key
  | .putUnlocked key value => m.putUnlocked key value
  | .putAll items => items.foldl (fun m item => m.putUnlocked item.1 item.2) m
  | .rotate => m.rotate
  | .clearFrozen => m.clearFrozen
  | .setMaxWalOffset offset => m.setMaxWalOffset offset

/-- The memtable after some calls. -/
def runCalls (m : MemTable) (calls : List Call) : MemTable := Runs.run Call.run m calls

theorem valueBytes_nonneg (items : List (Bytes × Bytes)) : 0 ≤ valueBytes items := by
  induction items with
  | nil => exact Int.le_refl 0
  | cons item items ih =>
    rw [valueBytes_cons]
    omega

theorem exact_run {m : MemTable} (h : m.Exact) (call : Call) : (call.run m).Exact := by
  cases call with
  | put key value => exact exact_putUnlocked h key value
  | delete key => exact exact_putUnlocked h key tombstone
  | putUnlocked key value => exact exact_putUnlocked h key value
  | putAll items => exact LSMStorageEngine.exact_foldl h items
  | rotate => exact exact_rotateUnlocked m
  | clearFrozen => exact h
  | setMaxWalOffset offset => exact h

/-- **The size accounting is exact** after any calls on a new memtable: `_current_size`
is the sum of the lengths of the active values, and so never negative. -/
theorem exact_runCalls (maxSize : Int) (calls : List Call) :
    let m := (init maxSize).runCalls calls
    m.currentSize = (m.data.entries.map fun item => (item.2.length : Int)).sum ∧ 0 ≤ m.currentSize := by
  intro m
  have hexact : m.Exact :=
    @Runs.run_invariant _ _ Call.run Exact (fun _ _ => True) (fun _ call h _ => exact_run h call)
      (init maxSize) calls rfl (Runs.along_of_forall (fun _ _ => trivial) _)
  refine ⟨hexact, ?_⟩
  rw [hexact]
  exact valueBytes_nonneg m.data.entries

end MemTable

namespace LSMStorageEngine

section Limit

variable {L : Type} [Log L]

/-! ## Puts and deletes -/

/-- What the active dictionary becomes when a call puts its entry. -/
def Op.entered (d : Buffer) : Op → Buffer
  | .put key value => d.set key value
  | .delete key => d.set key tombstone
  | _ => d

/-- How large the active dictionary is then, by the counter. -/
def Op.grown (m : MemTable) : Op → Int
  | .put key value => m.currentSize - lengthOf (m.data.get? key) + value.length
  | .delete key => m.currentSize - lengthOf (m.data.get? key) + tombstone.length
  | _ => m.currentSize

/-- After a call the active size is below the limit; if the call was accepted and took it
to the limit, the buffer with the entry has been frozen. -/
structure StaysBelow (e : LSMStorageEngine L) (op : Op) : Prop where
  below : (op.run e).1.memtable.currentSize < (op.run e).1.memtable.maxSize
  rotated : (op.run e).2 = .ok () → e.memtable.maxSize ≤ op.grown e.memtable →
    (op.run e).1.memtable.data = .empty ∧ ∃ offset, (op.run e).1.memtable.frozenQueue =
      e.memtable.frozenQueue ++ [(op.entered e.memtable.data, offset)]

/-- A delete that the log takes has room for its tombstone. -/
def LeavesRoom (e : LSMStorageEngine L) : Op → Prop
  | .delete key => LogRecord.Fits ⟨OperationType.delete, key, []⟩ →
      e.memtable.currentSize - lengthOf (e.memtable.data.get? key) + tombstone.length < e.memtable.maxSize
  | _ => True

instance (e : LSMStorageEngine L) : (op : Op) → Decidable (LeavesRoom e op)
  | .delete _ => inferInstanceAs (Decidable (_ → _))
  | .put _ _ | .batchPut _ _ | .rotate | .flush _ _ | .compact _ _ => .isTrue trivial

/-- No batch: a put or a delete, or what happens beside them. -/
def Op.IsSingle : Op → Prop
  | .batchPut _ _ => False
  | _ => True

instance : (op : Op) → Decidable op.IsSingle
  | .batchPut _ _ => .isFalse not_false
  | .put _ _ | .delete _ | .rotate | .flush _ _ | .compact _ _ => .isTrue trivial

/-- What is kept: a positive limit that is not reached. -/
structure UnderLimit (m : MemTable) : Prop where
  positive : 0 < m.maxSize
  below : m.currentSize < m.maxSize

theorem grown_put (m : MemTable) (key value : Bytes) :
    (m.putUnlocked key value).currentSize = (Op.put key value).grown m :=
  MemTable.currentSize_putUnlocked m key value

/-- `put` freezes the buffer exactly when it is full with the new entry. -/
theorem putSection_eq (m : MemTable) (key value : Bytes) (offset : Nat) :
    putSection m key value offset =
      if m.maxSize ≤ (Op.put key value).grown m then
        ((m.putUnlocked key value).setMaxWalOffset offset).rotateUnlocked
      else (m.putUnlocked key value).setMaxWalOffset offset := by
  have hfull : ((m.putUnlocked key value).setMaxWalOffset offset).isFull =
      decide (m.maxSize ≤ (Op.put key value).grown m) :=
    congrArg (fun size => decide (m.maxSize ≤ size)) (grown_put m key value)
  rw [putSection, hfull]
  by_cases hle : m.maxSize ≤ (Op.put key value).grown m
  · rw [if_pos hle, if_pos (decide_eq_true hle)]
  · rw [if_neg hle, if_neg (by simpa using hle)]

/-- No call changes the limit. -/
theorem maxSize_run (e : LSMStorageEngine L) (op : Op) :
    (op.run e).1.memtable.maxSize = e.memtable.maxSize := by
  cases op with
  | put key value =>
    rcases run_put e key value with ⟨offset, -, heq⟩ | ⟨err, heq⟩ <;> rw [heq]
    show (putSection e.memtable key value offset).maxSize = _
    rw [putSection_eq]
    split <;> rfl
  | delete key =>
    rcases run_delete e key with ⟨offset, -, heq⟩ | ⟨err, heq⟩ <;> rw [heq]
    rfl
  | batchPut keys values =>
    rcases run_batchPut e keys values with ⟨offset, -, -, -, heq⟩ | ⟨wal, err, heq⟩ <;> rw [heq]
    exact maxSize_batchSection e.memtable _ _ _
  | rotate => rfl
  | flush nameMs createdMs =>
    show (e.flush nameMs createdMs).memtable.maxSize = _
    rcases memtable_flush_cases e nameMs createdMs with ⟨-, -, heq⟩ | ⟨-, heq⟩ <;> rw [heq]
    rfl
  | compact nowNs createdMs => rfl

section Steps

variable [Zlib] {e : LSMStorageEngine Wal}

/-- A call that leaves the active size alone stays below, if it was not about to grow it. -/
theorem staysBelow_of_same (h : UnderLimit e.memtable) {op : Op}
    (hsize : (op.run e).1.memtable.currentSize = e.memtable.currentSize)
    (hgrown : (op.run e).2 = .ok () → op.grown e.memtable = e.memtable.currentSize) : StaysBelow e op := by
  constructor
  · rw [hsize, maxSize_run]
    exact h.below
  · intro hok hreached
    rw [hgrown hok] at hreached
    exact absurd h.below (Int.not_lt.mpr hreached)

theorem staysBelow_put (h : UnderLimit e.memtable) (key value : Bytes) : StaysBelow e (.put key value) := by
  rcases run_put e key value with ⟨offset, -, heq⟩ | ⟨err, heq⟩
  · have hafter : ((Op.put key value).run e).1.memtable = putSection e.memtable key value offset :=
      congrArg (fun r => r.1.memtable) heq
    by_cases hreached : e.memtable.maxSize ≤ (Op.put key value).grown e.memtable
    · rw [putSection_eq, if_pos hreached] at hafter
      constructor
      · rw [hafter]
        exact h.positive
      · intro _ _
        rw [hafter]
        exact ⟨rfl, _, rfl⟩
    · rw [putSection_eq, if_neg hreached] at hafter
      constructor
      · rw [maxSize_run, hafter]
        have hgrown := grown_put e.memtable key value
        exact hgrown.trans_lt (Int.not_le.mp hreached)
      · exact fun _ hle => absurd hle hreached
  · refine staysBelow_of_same h (by rw [heq]) ?_
    rw [heq]
    exact fun hok => absurd hok (by simp)

/-- `delete` puts its tombstone and does not look at the limit. -/
theorem staysBelow_delete_iff (h : UnderLimit e.memtable) (key : Bytes) :
    StaysBelow e (.delete key) ↔ LeavesRoom e (.delete key) := by
  have happend : Log.append e.wal OperationType.delete key [] = _ :=
    Wal.append_eq e.wal ⟨OperationType.delete, key, []⟩
  by_cases hfits : LogRecord.Fits ⟨OperationType.delete, key, []⟩
  · rw [if_pos hfits] at happend
    have hafter : ((Op.delete key).run e).1.memtable =
        (e.memtable.delete key).setMaxWalOffset e.wal.tell := by
      rw [Op.run, delete, happend]
    have hsize : ((Op.delete key).run e).1.memtable.currentSize = (Op.delete key).grown e.memtable := by
      rw [hafter]
      exact MemTable.currentSize_putUnlocked e.memtable key tombstone
    constructor
    · intro hbelow _
      have := hbelow.below
      rw [hsize, maxSize_run] at this
      exact this
    · intro hroom
      have hlt : (Op.delete key).grown e.memtable < e.memtable.maxSize := hroom hfits
      exact ⟨by rw [hsize, maxSize_run]; exact hlt, fun _ hreached => absurd hlt (Int.not_lt.mpr hreached)⟩
  -- a key that no record can hold is refused, and nothing changes
  · rw [if_neg hfits] at happend
    have hrefused : (Op.delete key).run e = ({ e with wal := e.wal.opened }, .error .structError) := by
      rw [Op.run, delete, happend]
    refine ⟨fun _ hfits' => absurd hfits' hfits, fun _ => ?_⟩
    refine staysBelow_of_same h (by rw [hrefused]) ?_
    rw [hrefused]
    exact fun hok => absurd hok (by simp)

/-- One call. -/
theorem staysBelow_step (h : UnderLimit e.memtable) {op : Op} (hop : op.IsSingle) :
    StaysBelow e op ↔ LeavesRoom e op := by
  cases op with
  | put key value => exact iff_of_true (staysBelow_put h key value) trivial
  | delete key => exact staysBelow_delete_iff h key
  | batchPut keys values => exact absurd hop not_false
  | rotate => exact iff_of_true ⟨h.positive, fun _ hreached => absurd h.below (Int.not_lt.mpr hreached)⟩ trivial
  | flush nameMs createdMs =>
    refine iff_of_true (staysBelow_of_same h ?_ fun _ => rfl) trivial
    show (e.flush nameMs createdMs).memtable.currentSize = _
    rcases memtable_flush_cases e nameMs createdMs with ⟨-, -, heq⟩ | ⟨-, heq⟩ <;> rw [heq]
    rfl
  | compact nowNs createdMs => exact iff_of_true (staysBelow_of_same h rfl fun _ => rfl) trivial

theorem underLimit_step (h : UnderLimit e.memtable) {op : Op} (hbelow : StaysBelow e op) :
    UnderLimit (op.run e).1.memtable :=
  ⟨maxSize_run e op ▸ h.positive, hbelow.below⟩

/-- In an engine that is below its limit. -/
theorem along_staysBelow_iff (h : UnderLimit e.memtable) {ops : List Op} (hops : ∀ op ∈ ops, op.IsSingle) :
    Along StaysBelow e ops ↔ Along LeavesRoom e ops := by
  induction ops generalizing e with
  | nil => exact Iff.rfl
  | cons op ops ih =>
    obtain ⟨hop, hrest⟩ := List.forall_mem_cons.mp hops
    rw [Along, Along, staysBelow_step h hop]
    refine and_congr_right fun hroom => ih (underLimit_step h ((staysBelow_step h hop).mpr hroom)) hrest

/-- **When the active buffer stays below its limit**: in a run of puts and deletes on a
fresh engine, with the flushes that puts start, every call leaves the active size below
the limit, and freezes the buffer if it would have reached it, exactly if every delete
has room for its tombstone. -/
theorem staysBelow_iff (storagePath : Path) (maxSize : Int) (hmax : 0 < maxSize) (ops : List Op)
    (hops : ∀ op ∈ ops, op.IsSingle) :
    Along StaysBelow (fresh storagePath maxSize) ops ↔ Along LeavesRoom (fresh storagePath maxSize) ops :=
  along_staysBelow_iff ⟨hmax, hmax⟩ hops

end Steps

end Limit

/-! ## Some runs -/

/-- A put that is frozen, two deletes, and a put that is frozen with their tombstones. -/
theorem staysBelow_iff_mixed :
    let ops : List Op := [.put [97] (List.replicate 30 0), .delete [97], .delete [98], .put [99] [1, 2, 3, 4]]
    Along StaysBelow (fresh "db" 30 : LSMStorageEngine Wal) ops :=
  (staysBelow_iff "db" 30 (by decide) _ (by decide)).mpr
    ⟨trivial, by decide +kernel, by decide +kernel, trivial, trivial⟩

/-- Three deletes leave 39 bytes in a buffer with a limit of 30. -/
theorem staysBelow_fails :
    ¬ ∀ (storagePath : Path) (maxSize : Int) (ops : List Op), 0 < maxSize → (∀ op ∈ ops, op.IsSingle) →
      Along StaysBelow (fresh storagePath maxSize : LSMStorageEngine Wal) ops := by
  intro h
  have hrun := h "db" 30 [.delete [97], .delete [98], .delete [99]] (by decide) (by decide)
  have := hrun.2.2.1.below
  revert this
  decide +kernel

end LSMStorageEngine

end Logvine
