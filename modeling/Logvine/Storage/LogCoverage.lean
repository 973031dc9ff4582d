import Logvine.Storage.LogOrder

/-!
# What the log may forget

A flush that has dropped its buffer cuts the log at the offset the buffer was frozen
with. The log is an ideal one here, whose records keep their positions for ever and
which a cut at an offset leaves without exactly the records before it; any number of
threads write, and buffers are frozen and flushed, in any order of their atomic steps.

- `Kept`: what the memtable answers for a key is the record of the key that was applied
  last, and this record is in the log or in a saved table once its call has returned;
- `FreezeOk`: nothing that a buffer's offset lies behind is still to be applied when the
  buffer is frozen;
- `Cover`: what every step keeps then: the buffers hold records that no cut reaches;
- `kept_run`: if all buffers are frozen so, every reachable state is `Kept`.

The log is an ideal one because the real one has faults of its own
(`Logvine.Storage.WalTruncation`): what is lost here is lost by the order of the engine's
steps alone. A write raises the offset of the buffer that is active when it is applied, not
when it was logged (`engine.py`, 142 and 151); `_rotate_unlocked` freezes that offset
(`memtable.py`, 179–182), and `flush` cuts the log there (`engine.py`, 302 and 316).
-/

namespace Logvine

open Layer SSTableManager

/-- An ideal log: records by increasing position, and the next position. -/
structure RecordList where
  next : Nat
  records : List WalEntry
  sorted : (records.map Prod.snd).Pairwise (· < ·)
  below : ∀ x ∈ records, x.2 < next

namespace RecordList

/-- The log with these records behind all others. -/
def push (l : RecordList) (rs : List LogRecord) : RecordList where
  next := l.next + rs.length
  records := l.records ++ rs.zipIdx l.next
  sorted := by
    rw [List.map_append, List.zipIdx_map_snd]
    refine List.pairwise_append.mpr ⟨l.sorted, List.pairwise_lt_range', ?_⟩
    intro n hn n' hn'
    obtain ⟨x, hx, rfl⟩ := List.mem_map.mp hn
    exact (l.below x hx).trans_le (List.mem_range'_1.mp hn').1
  below x hx := by
    rcases List.mem_append.mp hx with hx | hx
    · exact Nat.lt_add_right _ (l.below x hx)
    · exact List.snd_lt_add_of_mem_zipIdx hx

/-- A record that fits is appended, any other refused, as a `WAL` does. -/
def append (l : RecordList) (operation : UInt8) (key value : Bytes) : RecordList × Except Error Nat :=
  if LogRecord.Fits ⟨operation, key, value⟩ then (l.push [⟨operation, key, value⟩], .ok l.next)
  else (l, .error .structError)

/-- The same for a batch; the offset returned is that of the last record. -/
def appendBatch (l : RecordList) (operation : UInt8) (keys values : List Bytes) :
    RecordList × Except Error Nat :=
  let rs := Wal.batchRecords operation keys values
  if keys.length ≠ values.length then
    (l, .error (.valueError "keys and values must have the same length"))
  else if ∀ r ∈ rs, r.Fits then (l.push rs, .ok (l.next + (rs.length - 1)))
  else (l, .error .structError)

/-- Exactly the records before the offset are dropped. -/
def truncateUpto (l : RecordList) (offset : Int) : RecordList where
  next := l.next
  records := l.records.filter fun x => offset ≤ x.2
  sorted := l.sorted.sublist (List.filter_sublist.map Prod.snd)
  below x hx := l.below x (List.mem_filter.mp hx).1

instance : Log RecordList := ⟨append, appendBatch, truncateUpto⟩

/-- The ideal log keeps exactly the records from the offset on. -/
theorem mem_truncateUpto {l : RecordList} {offset : Nat} {x : WalEntry} :
    x ∈ (l.truncateUpto offset).records ↔ x ∈ l.records ∧ offset ≤ x.2 := by
  refine List.mem_filter.trans (and_congr_right ?_)
  intro _
  rw [decide_eq_true_iff, Int.ofNat_le]

end RecordList

namespace LSMStorageEngine

/-- The records a writer has appended and not applied yet, at their positions. -/
def WriterPc.entries (pc : WriterPc) : List WalEntry := pc.unapplied.zipIdx (pc.offset + 1 - pc.unapplied.length)

/-- The largest offset a writer may still give to the memtable. -/
def WriterPc.reach : WriterPc → Nat
  | .deleteApplied _ offset => offset
  | pc => pc.offset

namespace Config

/-- The records an action applies to the memtable. -/
def applied {L : Type} (c : Config L) : Action → List WalEntry
  | .write writer => (c.writers writer).entries
  | _ => []

/-- Of the records applied one after the other, the last one that says something about
the key. -/
def lastApplied (es : List WalEntry) (key : Bytes) : Option WalEntry :=
  es.reverse.find? fun x => (recordLayer x.1 key).isSome

/-- The call that has applied this record is not under way any more: only a deletion
takes a step after that. -/
def Returned {L : Type} (c : Config L) (x : WalEntry) : Prop :=
  ∀ writer, c.writers writer ≠ .deleteApplied x.1.key x.2

/-- A table that the saved manifest lists holds this value. -/
def Stored (t : Tables) (key value : Bytes) : Prop :=
  ∃ m ∈ readOrder t.reload.manifest, tableLayer t.files m key = some value

instance (t : Tables) (key value : Bytes) : Decidable (Stored t key value) :=
  inferInstanceAs (Decidable (∃ m ∈ readOrder t.reload.manifest, tableLayer t.files m key = some value))

/-- What the memtable holds has been applied last, and is in a saved table or in the log
if its call has returned. -/
def Kept (c : Config RecordList) (es : List WalEntry) : Prop :=
  ∀ key value, c.engine.memtable.get key = some value →
    ∃ x, lastApplied es key = some x ∧ recordLayer x.1 key = some value ∧
      (Returned c x → Stored c.engine.tables key value ∨ x ∈ c.engine.wal.records)

/-- If a buffer is frozen, no record before the offset it is frozen with is still to be
applied, the record of the put that freezes it apart. -/
def FreezeOk {L : Type} (c : Config L) : Action → Prop
  | .rotate => ∀ writer, ∀ x ∈ (c.writers writer).entries, c.engine.memtable.maxWalOffset ≤ x.2
  | .write writer =>
    match c.writers writer with
    | .putLogged key value offset =>
      ((c.engine.memtable.putUnlocked key value).setMaxWalOffset offset).isFull →
        ∀ other, other ≠ writer → ∀ x ∈ (c.writers other).entries,
          max c.engine.memtable.maxWalOffset offset ≤ x.2
    | .batchLogged _ inputSize _ =>
      c.engine.memtable.batchWouldExceed inputSize →
        ∀ other, ∀ x ∈ (c.writers other).entries, c.engine.memtable.maxWalOffset ≤ x.2
    | _ => True
  | _ => True

/-! ## The invariant -/

/-- The buffers hold the records applied last. What is in them or may still be applied is
in the log, where no cut reaches it. -/
structure Cover (c : Config RecordList) (es : List WalEntry) (q : BufferQueue WalEntry) : Prop where
  suffix : q.contents <:+ es
  fills : Fills Prod.fst c.engine.memtable q
  logged : ∀ x ∈ q.contents, x ∈ c.engine.wal.records
  ordered : q.Ordered Prod.snd
  next : q.Sealed c.engine.wal.next
  offset : q.offset ≤ c.engine.wal.next
  pending : ∀ writer, ∀ x ∈ (c.writers writer).entries, x ∈ c.engine.wal.records ∧ q.Sealed x.2
  reach : ∀ writer, (c.writers writer).reach ≤ c.engine.wal.next
  head : FlushHead q c.flush
  floor : q.floor = c.flush.floor

/-- The record of a key applied last is looked for from the end. -/
theorem lastApplied_append (es es' : List WalEntry) (key : Bytes) :
    lastApplied (es ++ es') key = (lastApplied es' key).or (lastApplied es key) := by
  rw [lastApplied, List.reverse_append, List.find?_append]
  rfl

/-- The record applied last decides. -/
theorem lastApplied_of_saying {es : List WalEntry} {key value : Bytes} (h : saying Prod.fst es key = some value) :
    ∃ x ∈ es, lastApplied es key = some x ∧ recordLayer x.1 key = some value := by
  induction es using List.reverseRecOn with
  | nil => cases h
  | append_singleton es x ih =>
    rw [saying_append, saying_singleton] at h
    have hlast : lastApplied [x] key = if (recordLayer x.1 key).isSome then some x else none := by
      rw [lastApplied, List.reverse_singleton, List.find?_singleton]
    rw [lastApplied_append, hlast]
    cases hx : recordLayer x.1 key with
    | some value' =>
      rw [above_of_some hx] at h
      exact ⟨x, List.mem_append_right _ (List.mem_singleton_self x), rfl, hx.trans h⟩
    | none =>
      rw [above_of_none hx] at h
      obtain ⟨x', hmem, hfind, hvalue⟩ := ih h
      exact ⟨x', List.mem_append_left _ hmem, by rw [hfind]; rfl, hvalue⟩

/-- **What is covered is kept.** -/
theorem Cover.kept {c : Config RecordList} {es : List WalEntry} {q : BufferQueue WalEntry} (h : Cover c es q) :
    Kept c es := by
  intro key value hget
  rw [MemTable.get_eq_layer, h.fills.layer] at hget
  obtain ⟨x, hmem, hlast, hvalue⟩ := lastApplied_of_saying hget
  obtain ⟨dead, rfl⟩ := h.suffix
  refine ⟨x, ?_, hvalue, fun _ => .inr (h.logged x hmem)⟩
  rw [lastApplied_append, hlast]
  rfl

/-! ## Writers -/

/-- A call that appends records, or none. -/
theorem Cover.push {c : Config RecordList} {es : List WalEntry} {q : BufferQueue WalEntry} (h : Cover c es q)
    {rs : List LogRecord} {writer : Nat} {pc : WriterPc}
    (hentries : pc.entries = rs.zipIdx c.engine.wal.next)
    (hreach : pc.reach ≤ c.engine.wal.next + rs.length) :
    Cover (c.wrote writer ({ c.engine with wal := c.engine.wal.push rs }, pc)) es q := by
  have hle : c.engine.wal.next ≤ c.engine.wal.next + rs.length := Nat.le_add_right ..
  refine ⟨h.suffix, h.fills, fun x hx => List.mem_append_left _ (h.logged x hx), h.ordered, h.next.mono hle,
    h.offset.trans hle, ?_, ?_, h.head, h.floor⟩
  -- the new records come behind all others, where no cut has been or is planned
  · intro other x hx
    by_cases heq : other = writer
    · subst heq
      rw [writers_wrote, hentries] at hx
      exact ⟨List.mem_append_right _ hx, h.next.mono (List.le_snd_of_mem_zipIdx hx)⟩
    · have hsame : (c.wrote writer ({ c.engine with wal := c.engine.wal.push rs }, pc)).writers other =
          c.writers other := Function.update_of_ne heq ..
      rw [hsame] at hx
      obtain ⟨hmem, hsealed⟩ := h.pending other x hx
      exact ⟨List.mem_append_left _ hmem, hsealed⟩
  · intro other
    by_cases heq : other = writer
    · subst heq
      rw [writers_wrote]
      exact hreach
    · have hsame : (c.wrote writer ({ c.engine with wal := c.engine.wal.push rs }, pc)).writers other =
          c.writers other := Function.update_of_ne heq ..
      rw [hsame]
      exact (h.reach other).trans hle

/-- A step that applies what the writer has appended. -/
theorem Cover.apply {c : Config RecordList} {es : List WalEntry} {q q' : BufferQueue WalEntry} (h : Cover c es q)
    {writer : Nat} {memtable : MemTable} {pc : WriterPc} (hfills : Fills Prod.fst memtable q')
    (hcontents : q'.contents = q.contents ++ (c.writers writer).entries) (hordered : q'.Ordered Prod.snd)
    (hfront : q.frozen <+: q'.frozen) (hfloor : q'.floor = q.floor) (hnext : q'.Sealed c.engine.wal.next)
    (hothers : ∀ other, other ≠ writer → ∀ x ∈ (c.writers other).entries, q'.Sealed x.2)
    (hoffset : q'.offset ≤ c.engine.wal.next) (hentries : pc.entries = [])
    (hreach : pc.reach ≤ c.engine.wal.next) :
    Cover (c.wrote writer ({ c.engine with memtable := memtable }, pc)) (es ++ (c.writers writer).entries) q' := by
  refine ⟨?_, hfills, ?_, hordered, hnext, hoffset, ?_, ?_, h.head.later hfront, hfloor.trans h.floor⟩
  · obtain ⟨dead, rfl⟩ := h.suffix
    exact ⟨dead, by rw [hcontents, List.append_assoc]⟩
  · intro x hx
    rw [hcontents] at hx
    rcases List.mem_append.mp hx with hx | hx
    · exact h.logged x hx
    · exact (h.pending writer x hx).1
  · intro other x hx
    by_cases heq : other = writer
    · subst heq
      rw [writers_wrote, hentries] at hx
      exact absurd hx List.not_mem_nil
    · have hsame : (c.wrote writer ({ c.engine with memtable := memtable }, pc)).writers other =
          c.writers other := Function.update_of_ne heq ..
      rw [hsame] at hx
      exact ⟨(h.pending other x hx).1, hothers other heq x hx⟩
  · intro other
    by_cases heq : other = writer
    · subst heq
      rw [writers_wrote]
      exact hreach
    · have hsame : (c.wrote writer ({ c.engine with memtable := memtable }, pc)).writers other =
          c.writers other := Function.update_of_ne heq ..
      rw [hsame]
      exact h.reach other

/-- A step that neither appends nor applies anything. -/
theorem Cover.same {c : Config RecordList} {es : List WalEntry} {q : BufferQueue WalEntry} (h : Cover c es q)
    {writer : Nat} {pc : WriterPc} (hentries : pc.entries = []) (hreach : pc.reach ≤ c.engine.wal.next) :
    Cover (c.wrote writer (c.engine, pc)) es q := by
  have hpush : Cover (c.wrote writer ({ c.engine with wal := c.engine.wal.push [] }, pc)) es q := h.push hentries hreach
  have hnone : c.engine.wal.push [] = c.engine.wal := by
    simp only [RecordList.push, List.length_nil, Nat.add_zero, List.zipIdx_nil, List.append_nil]
  rwa [hnone] at hpush

/-- A writer still has to apply the records it has appended. -/
theorem map_fst_entries (pc : WriterPc) : pc.entries.map Prod.fst = pc.unapplied := List.zipIdx_map_fst _ _

/-- `put` appends its record, which is then to be applied; no buffer changes yet. -/
theorem cover_put {c : Config RecordList} {es : List WalEntry} {q : BufferQueue WalEntry} (h : Cover c es q)
    (writer : Nat) (key value : Bytes) : Cover (c.wrote writer (begin c.engine (.put writer key value))) es q := by
  by_cases hfits : LogRecord.Fits ⟨OperationType.put, key, value⟩
  · have hrun : Log.append c.engine.wal OperationType.put key value =
        (c.engine.wal.push [⟨OperationType.put, key, value⟩], .ok c.engine.wal.next) := if_pos hfits
    rw [begin, hrun]
    exact h.push rfl (Nat.le_add_right ..)
  · have hrun : Log.append c.engine.wal OperationType.put key value = (c.engine.wal, .error .structError) :=
      if_neg hfits
    rw [begin, hrun]
    exact h.same rfl (Nat.zero_le _)

/-- So does `delete`. -/
theorem cover_delete {c : Config RecordList} {es : List WalEntry} {q : BufferQueue WalEntry} (h : Cover c es q)
    (writer : Nat) (key : Bytes) : Cover (c.wrote writer (begin c.engine (.delete writer key))) es q := by
  by_cases hfits : LogRecord.Fits ⟨OperationType.delete, key, []⟩
  · have hrun : Log.append c.engine.wal OperationType.delete key [] =
        (c.engine.wal.push [⟨OperationType.delete, key, []⟩], .ok c.engine.wal.next) := if_pos hfits
    rw [begin, hrun]
    exact h.push rfl (Nat.le_add_right ..)
  · have hrun : Log.append c.engine.wal OperationType.delete key [] = (c.engine.wal, .error .structError) :=
      if_neg hfits
    rw [begin, hrun]
    exact h.same rfl (Nat.zero_le _)

/-- The step of a batch that appends. -/
theorem cover_appendBatch {c : Config RecordList} {es : List WalEntry} {q : BufferQueue WalEntry}
    (h : Cover c es q) (writer : Nat) (keys values : List Bytes) (inputSize : Int) :
    Cover (c.wrote writer (writeNext c.engine (.batchSizing keys values [] inputSize))) es q := by
  rw [writeNext]
  split
  · exact h.same rfl (Nat.zero_le _)
  · by_cases hlen : keys.length = values.length
    · by_cases hfits : ∀ r ∈ Wal.batchRecords OperationType.put keys values, r.Fits
      · have hrun : Log.appendBatch c.engine.wal OperationType.put keys values =
            (c.engine.wal.push (Wal.batchRecords OperationType.put keys values),
              .ok (c.engine.wal.next + ((Wal.batchRecords OperationType.put keys values).length - 1))) := by
          show RecordList.appendBatch .. = _
          rw [RecordList.appendBatch, if_neg (not_not.mpr hlen), if_pos hfits]
        rw [hrun]
        refine h.push ?_ (Nat.add_le_add_left (Nat.sub_le ..) _)
        have hentries : ∀ lastOffset, (WriterPc.batchLogged (keys.zip values) inputSize lastOffset).entries =
            (Wal.batchRecords OperationType.put keys values).zipIdx
              (lastOffset + 1 - (Wal.batchRecords OperationType.put keys values).length) := fun _ => rfl
        rw [hentries]
        generalize Wal.batchRecords OperationType.put keys values = rs
        cases rs with
        | nil => rfl
        | cons r rs =>
          rw [List.length_cons]
          congr 1
          omega
      · have hrun : Log.appendBatch c.engine.wal OperationType.put keys values =
            (c.engine.wal, .error .structError) := by
          show RecordList.appendBatch .. = _
          rw [RecordList.appendBatch, if_neg (not_not.mpr hlen), if_neg hfits]
        rw [hrun]
        exact h.same rfl (Nat.zero_le _)
    · have hrun : Log.appendBatch c.engine.wal OperationType.put keys values =
          (c.engine.wal, .error (.valueError "keys and values must have the same length")) := if_pos hlen
      rw [hrun]
      exact h.same rfl (Nat.zero_le _)

/-- The section of a put. -/
theorem cover_putSection {c : Config RecordList} {es : List WalEntry} {q : BufferQueue WalEntry} (h : Cover c es q)
    {writer : Nat} {key value : Bytes} {offset : Nat} (hpc : c.writers writer = .putLogged key value offset)
    (hok : FreezeOk c (.write writer)) :
    ∃ q', Cover (c.wrote writer (writeNext c.engine (.putLogged key value offset)))
      (es ++ (c.writers writer).entries) q' := by
  rw [FreezeOk, hpc] at hok
  have hentries : (c.writers writer).entries = [(⟨OperationType.put, key, value⟩, offset)] := by rw [hpc]; rfl
  have hfills := h.fills.putSection (x := (⟨OperationType.put, key, value⟩, offset)) (if_pos rfl) offset
  have hordered : ((q.push [(⟨OperationType.put, key, value⟩, offset)]).reach (max q.offset offset)).Ordered
      Prod.snd := by
    refine (h.ordered.push ?_).reach _
    intro x hx
    exact (h.pending writer x (hentries ▸ hx)).2
  have hoffset : max q.offset offset ≤ c.engine.wal.next := by
    have := h.reach writer
    rw [hpc] at this
    exact Nat.max_le.mpr ⟨h.offset, this⟩
  by_cases hfull : ((c.engine.memtable.putUnlocked key value).setMaxWalOffset offset).isFull
  · rw [if_pos hfull] at hfills
    refine ⟨_, h.apply hfills ?_ hordered.freeze (List.prefix_append _ _) rfl ?_ ?_
      (Nat.zero_le _) rfl (Nat.zero_le _)⟩
    · rw [BufferQueue.contents_freeze, BufferQueue.contents_reach, BufferQueue.contents_push, hentries]
    -- the buffer is frozen: its offset lies behind nothing that is still to come
    · exact ((h.next.push _).reach _).freeze hoffset
    · intro other hne x hx
      refine (((h.pending other x hx).2.push _).reach _).freeze ?_
      have := hok hfull other hne x hx
      rwa [h.fills.offset] at this
  · rw [if_neg hfull] at hfills
    refine ⟨_, h.apply hfills ?_ hordered List.prefix_rfl rfl ((h.next.push _).reach _) ?_
      hoffset rfl (Nat.zero_le _)⟩
    · rw [BufferQueue.contents_reach, BufferQueue.contents_push, hentries]
    · intro other _ x hx
      exact ((h.pending other x hx).2.push _).reach _

/-- The section of a batch. -/
theorem cover_batchSection {c : Config RecordList} {es : List WalEntry} {q : BufferQueue WalEntry}
    (h : Cover c es q) {writer : Nat} {items : List (Bytes × Bytes)} {inputSize : Int} {lastOffset : Nat}
    (hpc : c.writers writer = .batchLogged items inputSize lastOffset) (hok : FreezeOk c (.write writer)) :
    ∃ q', Cover (c.wrote writer (writeNext c.engine (.batchLogged items inputSize lastOffset)))
      (es ++ (c.writers writer).entries) q' := by
  rw [FreezeOk, hpc] at hok
  have hmap : (c.writers writer).entries.map Prod.fst =
      items.map fun item => (⟨OperationType.put, item.1, item.2⟩ : LogRecord) := by
    rw [map_fst_entries, hpc]
    rfl
  have hfills := h.fills.batchSection hmap inputSize lastOffset
  have hoffset : lastOffset ≤ c.engine.wal.next := by
    have := h.reach writer
    rwa [hpc] at this
  by_cases hexceed : c.engine.memtable.batchWouldExceed inputSize
  · rw [if_pos hexceed] at hfills
    -- the buffer is frozen before the batch goes in, so this writer's records count as well
    have hsealed : ∀ other, ∀ x ∈ (c.writers other).entries, q.freeze.Sealed x.2 := by
      intro other x hx
      have := hok hexceed other x hx
      rw [h.fills.offset] at this
      exact (h.pending other x hx).2.freeze this
    refine ⟨_, h.apply hfills ?_ ((h.ordered.freeze.push (hsealed writer)).reach _) (List.prefix_append _ _) rfl
      (((h.next.freeze h.offset).push _).reach _) (fun other _ x hx => ((hsealed other x hx).push _).reach _)
      hoffset rfl (Nat.zero_le _)⟩
    rw [BufferQueue.contents_reach, BufferQueue.contents_push, BufferQueue.contents_freeze]
  · rw [if_neg hexceed] at hfills
    refine ⟨_, h.apply hfills ?_ ((h.ordered.push fun x hx => (h.pending writer x hx).2).reach _) List.prefix_rfl rfl
      ((h.next.push _).reach _) (fun other _ x hx => ((h.pending other x hx).2.push _).reach _)
      hoffset rfl (Nat.zero_le _)⟩
    rw [BufferQueue.contents_reach, BufferQueue.contents_push]

/-- Applying what is pending moves it to the active buffer, and freezes that where the condition
holds. -/
theorem cover_write {c : Config RecordList} {es : List WalEntry} {q : BufferQueue WalEntry} (h : Cover c es q)
    {writer : Nat} (hok : FreezeOk c (.write writer)) :
    ∃ q', Cover (act c (.write writer)) (es ++ applied c (.write writer)) q' := by
  have hreach := h.reach writer
  rw [act, applied]
  cases hpc : c.writers writer with
  | putLogged key value offset =>
    have := cover_putSection h hpc hok
    rwa [hpc] at this
  | batchLogged items inputSize lastOffset =>
    have := cover_batchSection h hpc hok
    rwa [hpc] at this
  | deleteLogged key offset =>
    have hfills : Fills Prod.fst (c.engine.memtable.delete key)
        (q.push [(⟨OperationType.delete, key, []⟩, offset)]) := h.fills.putUnlocked rfl
    have hordered : (q.push [(⟨OperationType.delete, key, []⟩, offset)]).Ordered Prod.snd := by
      refine h.ordered.push fun x hx => (h.pending writer x ?_).2
      rw [hpc]
      exact hx
    have happly : Cover (c.wrote writer (writeNext c.engine (.deleteLogged key offset)))
        (es ++ (c.writers writer).entries) (q.push [(⟨OperationType.delete, key, []⟩, offset)]) := by
      refine h.apply hfills ?_ hordered List.prefix_rfl rfl (h.next.push _)
        (fun other _ x hx => (h.pending other x hx).2.push _) h.offset rfl ?_
      · rw [hpc, BufferQueue.contents_push]
        rfl
      · rwa [hpc] at hreach
    rw [hpc] at happly
    exact ⟨_, happly⟩
  | deleteApplied key offset =>
    -- the record is applied already, only the offset is raised now
    have hoffset : max q.offset offset ≤ c.engine.wal.next := by
      rw [hpc] at hreach
      exact Nat.max_le.mpr ⟨h.offset, hreach⟩
    have happly : Cover (c.wrote writer (writeNext c.engine (.deleteApplied key offset)))
        (es ++ (c.writers writer).entries) (q.reach (max q.offset offset)) := by
      refine h.apply (h.fills.setMaxWalOffset offset) ?_ (h.ordered.reach _) List.prefix_rfl rfl (h.next.reach _)
        (fun other _ x hx => (h.pending other x hx).2.reach _) hoffset rfl (Nat.zero_le _)
      rw [hpc, BufferQueue.contents_reach]
      exact (List.append_nil _).symm
    rw [hpc] at happly
    exact ⟨_, happly⟩
  | idle =>
    refine ⟨q, ?_⟩
    rw [show WriterPc.entries .idle = [] from rfl, List.append_nil]
    exact h.same rfl (Nat.zero_le _)
  | batchSizing keys values rest inputSize =>
    refine ⟨q, ?_⟩
    rw [show WriterPc.entries (.batchSizing keys values rest inputSize) = [] from rfl, List.append_nil]
    cases rest with
    | nil => exact cover_appendBatch h writer keys values inputSize
    | cons item rest => exact h.same rfl (Nat.zero_le _)

/-! ## Rotations and flushes -/

/-- `rotate` freezes it likewise. -/
theorem cover_rotate {c : Config RecordList} {es : List WalEntry} {q : BufferQueue WalEntry} (h : Cover c es q)
    (hok : FreezeOk c .rotate) : Cover (act c .rotate) es q.freeze := by
  refine ⟨?_, h.fills.rotateUnlocked, ?_, h.ordered.freeze, h.next.freeze h.offset, Nat.zero_le _,
    ?_, h.reach, h.head.later (List.prefix_append _ _), h.floor⟩
  · rw [BufferQueue.contents_freeze]
    exact h.suffix
  · rw [BufferQueue.contents_freeze]
    exact h.logged
  · intro writer x hx
    obtain ⟨hmem, hsealed⟩ := h.pending writer x hx
    have hoffset := hok writer x hx
    rw [h.fills.offset] at hoffset
    exact ⟨hmem, hsealed.freeze hoffset⟩

/-- A flush that has ended cuts nothing. -/
theorem Cover.ended {c : Config RecordList} {es : List WalEntry} {q : BufferQueue WalEntry} (h : Cover c es q)
    (t : Tables) {pc : FlushPc} (hhead : FlushHead q.cut pc) (hfloor : pc.floor = 0) :
    Cover { c with engine := { c.engine with tables := t }, flush := pc } es q.cut :=
  ⟨h.suffix, h.fills.cut, h.logged, h.ordered.cut, h.next.cut, h.offset,
    fun writer x hx => ⟨(h.pending writer x hx).1, (h.pending writer x hx).2.cut⟩, h.reach, hhead, hfloor.symm⟩

/-- A step of a flush: the entries of the oldest buffer come into a table before its offset cuts
the log. -/
theorem cover_flushNext {c : Config RecordList} {es : List WalEntry} {q : BufferQueue WalEntry} (h : Cover c es q)
    (nowMs : Nat) :
    ∃ q', Cover { c with
      engine := (flushNext nowMs c.engine c.flush).1
      flush := (flushNext nowMs c.engine c.flush).2 } es q' := by
  rcases flushNext_queue h.fills h.head h.floor nowMs with ⟨hmemtable, hwal, hhead, hfloor⟩ |
    ⟨entries, walOffset, rest, hq, hpc, heq⟩ | ⟨walOffset, hpc, heq⟩
  · refine ⟨q, h.suffix, by rw [hmemtable]; exact h.fills, ?_, h.ordered, ?_, ?_, ?_, ?_, hhead, hfloor⟩ <;> rw [hwal]
    · exact h.logged
    · exact h.next
    · exact h.offset
    · exact h.pending
    · exact h.reach
  · -- the oldest buffer is dropped, its offset becomes the floor
    rw [heq]
    have hcontents := BufferQueue.contents_drop hq
    have hoffset : q.drop.offset = q.offset := by rw [BufferQueue.drop_of_frozen hq]
    refine ⟨q.drop, ?_, h.fills.clearFrozen, fun x hx => h.logged x ?_, h.ordered.drop, h.next.drop,
      hoffset.trans_le h.offset, ?_, h.reach, trivial, ?_⟩
    · refine List.IsSuffix.trans ?_ h.suffix
      rw [hcontents]
      exact List.suffix_append _ _
    · rw [hcontents]
      exact List.mem_append_right _ hx
    · intro writer x hx
      exact ⟨(h.pending writer x hx).1, (h.pending writer x hx).2.drop⟩
    · rw [BufferQueue.drop_of_frozen hq]
      rfl
  · -- the cut is at the floor
    have hfloor : q.floor = walOffset := by rw [h.floor, hpc]; rfl
    rw [heq]
    refine ⟨q.cut, h.suffix, h.fills.cut, ?_, h.ordered.cut, h.next.cut, h.offset, ?_,
      h.reach, trivial, rfl⟩
    · intro x hx
      exact RecordList.mem_truncateUpto.mpr ⟨h.logged x hx, hfloor ▸ h.ordered.floor x hx⟩
    · intro writer x hx
      obtain ⟨hmem, hsealed⟩ := h.pending writer x hx
      exact ⟨RecordList.mem_truncateUpto.mpr ⟨hmem, hfloor ▸ hsealed.floor⟩, hsealed.cut⟩

/-- The step as an action of the system. -/
theorem cover_flush {c : Config RecordList} {es : List WalEntry} {q : BufferQueue WalEntry} (h : Cover c es q)
    (nowMs : Nat) : ∃ q', Cover (act c (.flush nowMs)) es q' := by
  rw [act]
  split
  · exact ⟨_, h.ended c.engine.tables trivial rfl⟩
  · exact ⟨_, h.ended c.engine.tables trivial rfl⟩
  · exact cover_flushNext h nowMs

/-- A flush that raises stops between two of its steps. -/
theorem cover_raise {c : Config RecordList} {es : List WalEntry} {q : BufferQueue WalEntry} (h : Cover c es q)
    (nowMs : Nat) (content : Option Bytes) : ∃ q', Cover (act c (.raise nowMs content)) es q' := by
  rw [act]
  split
  · exact ⟨q, h⟩
  · exact ⟨q, h⟩
  · exact ⟨q, h⟩
  · exact ⟨_, h.ended _ trivial rfl⟩
  · exact ⟨_, h.ended c.engine.tables trivial rfl⟩

/-- **Every step** keeps the records covered, if it freezes no buffer ahead of a record
that is still to be applied. -/
theorem cover_step {c : Config RecordList} {es : List WalEntry} (h : ∃ q, Cover c es q) {a : Action}
    (hok : FreezeOk c a) : ∃ q, Cover (act c a) (es ++ applied c a) q := by
  obtain ⟨q, h⟩ := h
  have hnone : ∀ {c' : Config RecordList} {q' : BufferQueue WalEntry}, Cover c' es q' →
      ∃ q', Cover c' (es ++ []) q' := by
    intro c' q' h'
    rw [List.append_nil]
    exact ⟨q', h'⟩
  cases a with
  | put writer key value =>
    refine hnone (?_ : Cover _ es q)
    rw [act]
    split
    · exact cover_put h writer key value
    · exact h
  | delete writer key =>
    refine hnone (?_ : Cover _ es q)
    rw [act]
    split
    · exact cover_delete h writer key
    · exact h
  | batchPut writer keys values =>
    refine hnone (?_ : Cover _ es q)
    rw [act]
    split
    · rw [begin]
      split <;> exact h.same rfl (Nat.zero_le _)
    · exact h
  | write writer => exact cover_write h hok
  | rotate => exact hnone (cover_rotate h hok)
  | flush nowMs =>
    obtain ⟨q', h'⟩ := cover_flush h nowMs
    exact hnone h'
  | raise nowMs content =>
    obtain ⟨q', h'⟩ := cover_raise h nowMs content
    exact hnone h'

/-! ## Runs -/

/-- An engine that has been started on a log. -/
def startedOn (storagePath : Path) (memtableMaxSize : Int) (l : RecordList) (t : Tables) :
    LSMStorageEngine RecordList :=
  ⟨storagePath, memtableMaxSize, l.records.foldl replayEntry (.init memtableMaxSize), l, t.reload⟩

/-- The largest offset replayed is below any bound on all of them. -/
theorem foldl_max_le {es : List WalEntry} {n k : Nat} (hn : n ≤ k) (hes : ∀ x ∈ es, x.2 ≤ k) :
    es.foldl (fun n x => max n x.2) n ≤ k := by
  induction es generalizing n with
  | nil => exact hn
  | cons x es ih =>
    exact ih (Nat.max_le.mpr ⟨hn, hes x List.mem_cons_self⟩) fun x' hx' => hes x' (List.mem_cons_of_mem _ hx')

/-- After a start everything in the log is in the active buffer. -/
theorem cover_start (storagePath : Path) (memtableMaxSize : Int) (l : RecordList) (t : Tables) :
    ∃ q, Cover (start (startedOn storagePath memtableMaxSize l t)) l.records q := by
  refine ⟨_, List.suffix_rfl, (fills_init Prod.fst memtableMaxSize).replay, fun x hx => hx, ?_, ?_, ?_,
    fun writer x hx => absurd hx List.not_mem_nil, fun writer => Nat.zero_le _, trivial, rfl⟩
  · exact BufferQueue.ordered_active Prod.snd
  · exact ((BufferQueue.sealed_empty _).push _).reach _
  · exact foldl_max_le (Nat.zero_le _) fun x hx => (l.below x hx).le

/-- **The log keeps what is not in a table.** An engine is started on any log, any number
of threads write to it, freeze and flush, and no buffer is frozen ahead of a record that
is still to be applied. Then in every state reached what the memtable holds is in the log
or in a saved table, once the call that wrote it has returned. -/
theorem kept_run (storagePath : Path) (memtableMaxSize : Int) (l : RecordList) (t : Tables)
    (actions : List Action)
    (hok : Runs.Along act FreezeOk (start (startedOn storagePath memtableMaxSize l t)) actions) :
    Kept (Runs.run act (start (startedOn storagePath memtableMaxSize l t)) actions)
      (l.records ++ Runs.collect act applied (start (startedOn storagePath memtableMaxSize l t)) actions) := by
  have hstep : ∀ c a es, (∃ q, Cover c es q) → FreezeOk c a → ∃ q, Cover (act c a) (es ++ applied c a) q :=
    fun _ _ _ h hok => cover_step h hok
  obtain ⟨q, h⟩ := Runs.run_collect_invariant hstep (cover_start storagePath memtableMaxSize l t) hok
  exact h.kept

/-! ## A put that is overtaken -/

/-- A log without records. -/
def noRecords : RecordList := ⟨0, [], List.Pairwise.nil, nofun⟩

/-- The steps of a flush that finds something to write. -/
def wholeFlush : List Action := List.replicate 9 (.flush 5)

/-- The first writer has logged its record when the second applies its own, which is then
frozen and flushed; the first one applies its record meanwhile. -/
def overtaken : List Action := [.put 0 [97] [49], .put 1 [98] [50], .write 1, .rotate, .write 0] ++ wholeFlush

/-- The same with the first record applied in time. -/
def inTime : List Action := [.put 0 [97] [49], .put 1 [98] [50], .write 1, .write 0, .rotate] ++ wholeFlush

theorem idle_overtaken (writer : Nat) :
    (Runs.run act (start (startedOn "db" 1000 noRecords .fresh)) overtaken).writers writer = .idle := by
  match writer with
  | 0 | 1 => decide +kernel
  | n + 2 => rfl

theorem kept_run_fails :
    ¬ ∀ (storagePath : Path) (memtableMaxSize : Int) (actions : List Action),
      Kept (Runs.run act (start (startedOn storagePath memtableMaxSize noRecords .fresh)) actions)
        (Runs.collect act applied (start (startedOn storagePath memtableMaxSize noRecords .fresh)) actions) := by
  intro h
  obtain ⟨x, hlast, -, hkept⟩ := h "db" 1000 overtaken [97] [49] (by decide +kernel)
  have hx : lastApplied (Runs.collect act applied (start (startedOn "db" 1000 noRecords .fresh)) overtaken) [97] =
      some (⟨OperationType.put, [97], [49]⟩, 0) := by
    decide +kernel
  obtain rfl := Option.some.inj (hx.symm.trans hlast)
  have hreturned : Returned (Runs.run act (start (startedOn "db" 1000 noRecords .fresh)) overtaken)
      (⟨OperationType.put, [97], [49]⟩, 0) := by
    intro writer heq
    rw [idle_overtaken] at heq
    cases heq
  have hlost := hkept hreturned
  revert hlost
  decide +kernel

theorem freezeOk_inTime :
    Runs.Along act FreezeOk (start (startedOn "db" 1000 noRecords .fresh)) inTime := by
  refine ⟨trivial, trivial, fun hfull => absurd hfull (by decide +kernel),
    fun hfull => absurd hfull (by decide +kernel), ?_, ?_⟩
  · intro writer x hx
    have hidle : (Runs.run act (start (startedOn "db" 1000 noRecords .fresh)) (inTime.take 4)).writers writer =
        .idle := by
      match writer with
      | 0 | 1 => decide +kernel
      | n + 2 => rfl
    have hnone : x ∈ WriterPc.entries .idle := hidle ▸ hx
    cases hnone
  · exact ⟨trivial, trivial, trivial, trivial, trivial, trivial, trivial, trivial, trivial, trivial⟩

theorem kept_run_inTime :
    Kept (Runs.run act (start (startedOn "db" 1000 noRecords .fresh)) inTime)
      ([] ++ Runs.collect act applied (start (startedOn "db" 1000 noRecords .fresh)) inTime) :=
  kept_run "db" 1000 noRecords .fresh inTime freezeOk_inTime

end Config

end LSMStorageEngine

end Logvine
