import Logvine.Base.NamedFile
import Logvine.Storage.WalRecord

/-!
# The write-ahead log

A `WAL` object is a file name and a handle for appending, opened by the first
append and kept from then on. Appends go through the handle, replay and
truncation through the name.

- `Wal.Holds`: the file the name is bound to is a sequence of records;
- `Wal.Synced`: the handle, if open, is at the end of that same file;
- `append_eq`, `appendBatch_eq`: an append either writes exactly the encoding of
  its records and returns the position of the last one, or raises and writes
  nothing;
- `holds_written`, `holds_truncateUpto`: on a synced log an append extends the
  records, and truncating at a record boundary drops the records before it.

`open` returns nothing, so `__init__` leaves `file` at `None` (`wal.py`, 33 and 36–49) and
the first append opens it again (68–69). From then on `append` and `append_batch` write
through this handle, at the position it tells (74–77, 251–257), while `replay` and
`truncate_upto` go by the path (103, 161–176). That both are about one file is an invariant
here, and not one that every call keeps.
-/

namespace Logvine

variable [Zlib]

/-- A `WAL` object: its file and its handle for appending, if it is open. -/
structure Wal where
  disk : NamedFile
  file : Option Handle
  file_lt : ∀ h, file = some h → h.object < disk.fresh

namespace Wal

/-- `WAL.__init__`. The `open` it calls creates the file and stores a handle in
`self.file`, but returns `None`, which is then assigned to `self.file`: the
object starts without a handle. -/
def init (disk : NamedFile) : Wal := ⟨disk.touch, none, nofun⟩

/-- The file and handle an append works with: `if not self.file: self.open()`. -/
def handle (w : Wal) : NamedFile × Handle :=
  match w.file with
  | some h => (w.disk, h)
  | none => w.disk.openAppend

omit [Zlib] in
theorem handle_lt (w : Wal) : w.handle.2.object < w.handle.1.fresh := by
  unfold handle
  split
  · next h hf => exact w.file_lt h hf
  · exact NamedFile.object_openAppend_lt w.disk

/-- The object after `self.open()`, if that was necessary. -/
def opened (w : Wal) : Wal where
  disk := w.handle.1
  file := some w.handle.2
  file_lt := by
    rintro h ⟨rfl⟩
    exact w.handle_lt

/-- `self.file.tell()`, once the handle is open. -/
def tell (w : Wal) : Nat := w.handle.2.position

/-- `self.file.write(bs)`, flushed and fsynced. -/
def written (w : Wal) (bs : Bytes) : Wal where
  disk := (w.handle.1.append w.handle.2 bs).1
  file := some (w.handle.1.append w.handle.2 bs).2
  file_lt := by
    rintro h ⟨rfl⟩
    exact w.handle_lt

/-- `WAL.append`: the offset returned is the handle's position before the write. -/
def append (w : Wal) (operation : UInt8) (key value : Bytes) : Wal × Except Error Nat :=
  match constructRecord operation key value with
  -- the handle is opened before the record is built
  | .error e => (w.opened, .error e)
  | .ok record => (w.written record, .ok w.tell)

/-- The loop of `WAL.append_batch`: the batch so far and the length of the
record built last. -/
def batchRecord (operation : UInt8) : Bytes × Nat → List (Bytes × Bytes) → Except Error (Bytes × Nat)
  | acc, [] => .ok acc
  | (batch, _), (key, value) :: rest => do
    let record ← constructRecord operation key value
    batchRecord operation (batch ++ record, record.length) rest

/-- `WAL.append_batch`: the offset returned is that of the last record; an empty
batch writes nothing and returns the position. -/
def appendBatch (w : Wal) (operation : UInt8) (keys values : List Bytes) : Wal × Except Error Nat :=
  if keys.length ≠ values.length then
    (w, .error (.valueError "keys and values must have the same length"))
  else if keys = [] then (w.opened, .ok w.tell)
  else
    match batchRecord operation ([], 0) (keys.zip values) with
    | .error e => (w.opened, .error e)
    | .ok (batch, lastLen) => (w.written batch, .ok (w.tell + batch.length - lastLen))

/-- `WAL.truncate_upto`. Reaching the end of the file empties it in place; else
the rest is written to a new file that is renamed onto the name. The handle
stays where it is in both cases. -/
def truncateUpto (w : Wal) (offset : Int) : Wal :=
  match w.disk.content with
  | none => w
  | some bytes =>
    -- nothing to cut; everything; a front part
    if offset ≤ 0 then w
    else if bytes.length ≤ offset then
      { w with
        disk := w.disk.truncate
        file_lt := fun h hf => by
          have hlt := w.file_lt h hf
          unfold NamedFile.truncate
          split
          · exact hlt
          · exact Nat.lt_succ_of_lt hlt }
    else
      { w with
        disk := w.disk.replace (bytes.drop offset.toNat)
        file_lt := fun h hf => Nat.lt_succ_of_lt (w.file_lt h hf) }

/-- `WAL.replay`. -/
def replay (w : Wal) : Replay := Logvine.replay w.disk.content

/-! ## The records of a log and its handle -/

/-- The file reads as exactly these records. -/
structure Holds (w : Wal) (log : List LogRecord) : Prop where
  content : w.disk.content = some (encodeLog log)
  fits : ∀ r ∈ log, r.Fits

/-- The handle, if open, is at the end of the file the name is bound to. -/
def Synced (w : Wal) : Prop := ∀ h, w.file = some h → w.disk.InSync h

/-- A log that holds records replays as them. -/
theorem Holds.replay {w : Wal} {log : List LogRecord} (h : w.Holds log) :
    w.replay = ⟨entriesFrom 0 log, none⟩ := by
  rw [Wal.replay, h.content, replay_encodeLog h.fits]

/-- A log opened on whole records holds them. -/
theorem holds_init {disk : NamedFile} {log : List LogRecord}
    (h : disk.content.getD [] = encodeLog log) (hfits : ∀ r ∈ log, r.Fits) :
    (init disk).Holds log := by
  refine ⟨?_, hfits⟩
  show disk.touch.content = _
  rw [NamedFile.content_touch, h]

omit [Zlib] in
theorem synced_init (disk : NamedFile) : (init disk).Synced := fun _ h => nomatch h

omit [Zlib] in
/-- Opening the handle keeps it at the end of its file. -/
theorem inSync_handle {w : Wal} (h : w.Synced) : w.handle.1.InSync w.handle.2 := by
  unfold handle
  split
  · next hd hf => exact h hd hf
  · exact NamedFile.inSync_openAppend w.disk

omit [Zlib] in
/-- And keeps what the file holds. -/
theorem content_handle {w : Wal} {bs : Bytes} (h : w.disk.content = some bs) :
    w.handle.1.content = some bs := by
  unfold handle
  split
  · exact h
  · exact NamedFile.content_openAppend h

theorem Holds.opened {w : Wal} {log : List LogRecord} (h : w.Holds log) : w.opened.Holds log :=
  ⟨content_handle h.content, h.fits⟩

omit [Zlib] in
/-- `wal.file` is at the end of what was written through it. -/
theorem Synced.opened {w : Wal} (h : w.Synced) : w.opened.Synced := by
  rintro hd ⟨rfl⟩
  exact inSync_handle h

omit [Zlib] in
/-- The bytes of the handle's object are the bytes the name reads as. -/
theorem objects_of_inSync {f : NamedFile} {h : Handle} {bs : Bytes} (hs : f.InSync h)
    (hc : f.content = some bs) : f.objects h.object = bs := by
  rw [NamedFile.content_of_binding hs.1] at hc
  exact Option.some.inj hc

/-- In a synced log, the position is the length of the log. -/
theorem tell_eq {w : Wal} {log : List LogRecord} (h : w.Holds log) (hs : w.Synced) :
    w.tell = (encodeLog log).length := by
  have hsync := inSync_handle hs
  rw [tell, hsync.2, objects_of_inSync hsync (content_handle h.content)]

/-- Writing records to a synced log appends them. -/
theorem holds_written {w : Wal} {log rs : List LogRecord} (h : w.Holds log) (hs : w.Synced)
    (hfits : ∀ r ∈ rs, r.Fits) : (w.written (encodeLog rs)).Holds (log ++ rs) := by
  have hsync := inSync_handle hs
  refine ⟨?_, fun r hr => (List.mem_append.mp hr).elim (h.fits r) (hfits r)⟩
  show (w.handle.1.append w.handle.2 (encodeLog rs)).1.content = _
  rw [NamedFile.content_append_of_inSync hsync, objects_of_inSync hsync (content_handle h.content),
    encodeLog_append]

omit [Zlib] in
/-- It stays there when more is written. -/
theorem synced_written {w : Wal} (hs : w.Synced) (bs : Bytes) : (w.written bs).Synced := by
  rintro hd ⟨rfl⟩
  exact NamedFile.inSync_append (inSync_handle hs) bs

/-! ## What the appends do -/

/-- `append` writes a record that fits and refuses any other. -/
theorem append_eq (w : Wal) (r : LogRecord) :
    w.append r.operation r.key r.value =
      if r.Fits then (w.written (encodeLog [r]), .ok w.tell)
      else (w.opened, .error .structError) := by
  unfold append
  rw [constructRecord_eq]
  by_cases h : r.Fits
  · rw [if_pos h, if_pos h, encodeLog_cons, encodeLog_nil, List.append_nil]
  · rw [if_neg h, if_neg h]

/-- An append succeeds exactly when its record fits. -/
theorem append_ok_iff (w : Wal) (r : LogRecord) :
    (∃ offset, (w.append r.operation r.key r.value).2 = .ok offset) ↔ r.Fits := by
  rw [append_eq]
  by_cases h : r.Fits
  · rw [if_pos h]
    exact iff_of_true ⟨_, rfl⟩ h
  · rw [if_neg h]
    exact iff_of_false (fun ⟨_, hok⟩ => by cases hok) h

/-- The records of a batch. -/
def batchRecords (operation : UInt8) (keys values : List Bytes) : List LogRecord :=
  (keys.zip values).map fun p => ⟨operation, p.1, p.2⟩

/-- The loop of `append_batch` builds the records one after the other, and keeps the length of the
last. -/
theorem batchRecord_eq (operation : UInt8) (batch : Bytes) (lastLen : Nat)
    (kvs : List (Bytes × Bytes)) :
    batchRecord operation (batch, lastLen) kvs =
      let rs := kvs.map fun p => (⟨operation, p.1, p.2⟩ : LogRecord)
      if ∀ r ∈ rs, r.Fits then
        .ok (batch ++ encodeLog rs, (rs.getLast?.map fun r => (encodeRecord r).length).getD lastLen)
      else .error .structError := by
  induction kvs generalizing batch lastLen with
  | nil => simp [batchRecord]
  | cons p kvs ih =>
    obtain ⟨key, value⟩ := p
    have hrec := constructRecord_eq ⟨operation, key, value⟩
    rw [batchRecord, hrec]
    by_cases hr : LogRecord.Fits ⟨operation, key, value⟩
    · rw [if_pos hr]
      show batchRecord operation (batch ++ encodeRecord ⟨operation, key, value⟩,
        (encodeRecord ⟨operation, key, value⟩).length) kvs = _
      rw [ih]
      simp only [List.map_cons, List.forall_mem_cons, hr, true_and, encodeLog_cons,
        List.append_assoc, List.getLast?_cons]
      cases (kvs.map fun p => (⟨operation, p.1, p.2⟩ : LogRecord)).getLast? <;> rfl
    · simp only [List.map_cons, List.forall_mem_cons, hr, false_and]
      rfl

/-- `append_batch` writes a batch whose records all fit, returning the offset its
last record gets, and refuses any other; nothing is written for no records. -/
theorem appendBatch_eq (w : Wal) (operation : UInt8) {keys values : List Bytes}
    (hlen : keys.length = values.length) :
    w.appendBatch operation keys values =
      let rs := batchRecords operation keys values
      if keys = [] then (w.opened, .ok w.tell)
      else if ∀ r ∈ rs, r.Fits then
        (w.written (encodeLog rs), .ok (w.tell + (encodeLog rs.dropLast).length))
      else (w.opened, .error .structError) := by
  rw [appendBatch, if_neg (fun h => h hlen)]
  by_cases hnil : keys = []
  · rw [if_pos hnil, if_pos hnil]
  · rw [if_neg hnil, if_neg hnil, batchRecord_eq]
    dsimp only
    rw [← batchRecords]
    by_cases hfits : ∀ r ∈ batchRecords operation keys values, r.Fits
    · have hne : batchRecords operation keys values ≠ [] := by
        intro h
        have := congrArg List.length h
        simp only [batchRecords, List.length_map, List.length_zip, List.length_nil, ← hlen,
          Nat.min_self] at this
        exact hnil (List.eq_nil_of_length_eq_zero this)
      have hsplit : encodeLog (batchRecords operation keys values) =
          encodeLog (batchRecords operation keys values).dropLast ++
            encodeRecord ((batchRecords operation keys values).getLast hne) := by
        conv_lhs => rw [← List.dropLast_concat_getLast hne, encodeLog_append]
        rw [encodeLog_cons, encodeLog_nil, List.append_nil]
      rw [if_pos hfits, if_pos hfits, List.getLast?_eq_some_getLast hne]
      simp only [List.nil_append, Option.map_some, Option.getD_some]
      -- the offset of the last record: the whole batch less its last record
      rw [hsplit, List.length_append, ← Nat.add_assoc, Nat.add_sub_cancel]
    · rw [if_neg hfits, if_neg hfits]

/-- An append of a batch succeeds exactly when all of its records fit. -/
theorem appendBatch_ok_iff (w : Wal) (operation : UInt8) {keys values : List Bytes}
    (hlen : keys.length = values.length) :
    (∃ offset, (w.appendBatch operation keys values).2 = .ok offset) ↔
      ∀ r ∈ batchRecords operation keys values, r.Fits := by
  rw [appendBatch_eq w operation hlen]
  dsimp only
  by_cases hnil : keys = []
  · -- no record is made of no keys
    rw [if_pos hnil, hnil]
    exact iff_of_true ⟨_, rfl⟩ fun r hr => absurd hr List.not_mem_nil
  · rw [if_neg hnil]
    by_cases hfits : ∀ r ∈ batchRecords operation keys values, r.Fits
    · rw [if_pos hfits]
      exact iff_of_true ⟨_, rfl⟩ hfits
    · rw [if_neg hfits]
      exact iff_of_false (fun ⟨_, hok⟩ => by cases hok) hfits

/-! ## Truncation at record boundaries -/

/-- Only no records at all take no bytes. -/
theorem encodeLog_eq_nil_iff {rs : List LogRecord} : encodeLog rs = [] ↔ rs = [] := by
  cases rs with
  | nil => simp
  | cons r rs =>
    rw [encodeLog_cons]
    simp [encodeRecord_ne_nil]

/-- Truncating at the end of the first records of a log leaves the others. -/
theorem holds_truncateUpto {w : Wal} {dropped kept : List LogRecord}
    (h : w.Holds (dropped ++ kept)) : (w.truncateUpto (encodeLog dropped).length).Holds kept := by
  refine ⟨?_, fun r hr => h.fits r (List.mem_append_right _ hr)⟩
  have hc := h.content
  rw [encodeLog_append] at hc
  unfold truncateUpto
  rw [hc]
  dsimp only
  split
  · next h0 =>
    have : encodeLog dropped = [] := List.eq_nil_of_length_eq_zero (by omega)
    rw [hc, this, List.nil_append]
  · split
    -- the end of the file is reached only if no record is kept
    · next hall =>
      rw [List.length_append] at hall
      have : encodeLog kept = [] := List.eq_nil_of_length_eq_zero (by omega)
      rw [this]
      exact NamedFile.content_truncate
    · rw [NamedFile.content_replace, Int.toNat_natCast, List.drop_left]

end Wal

end Logvine
