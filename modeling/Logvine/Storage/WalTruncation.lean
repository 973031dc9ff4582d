import Logvine.Storage.Wal

/-!
# Appends and truncations of one WAL object

What survives when appends and truncations alternate on one `WAL` object. Two
things go wrong, for two reasons:

- the handle for appending stays on the file it was opened on, while a
  truncation that keeps a rest renames a new file onto the name. What is
  appended afterwards goes to the old file and is never replayed;
- an append returns the position of its record in the file of that moment. Once
  a truncation has shortened the file, the offsets returned before it name other
  positions.

`replay_after_appends` says when no append is lost, `truncationsExact_iff` when
every truncation leaves exactly the record it was aimed at and the later ones.

The first comes from the renaming (`wal.py`, 171–176), the second from `tell` (74 and 251).
No single call shows either of them: the conditions are about the state before each call of
a run, and the proofs keep one invariant up to the first cut (`Intact`) and another one
behind it (`Severed`).
-/

namespace Logvine

namespace Wal

section Appends

variable [Zlib]

/-! ## Append calls -/

/-- A call of `append` or `append_batch`. -/
inductive AppendCall where
  | append (operation : UInt8) (key value : Bytes)
  | appendBatch (operation : UInt8) (keys values : List Bytes)
deriving DecidableEq, Repr

namespace AppendCall

/-- Make the call. -/
def run (w : Wal) : AppendCall → Wal × Except Error Nat
  | .append operation key value => w.append operation key value
  | .appendBatch operation keys values => w.appendBatch operation keys values

/-- The records the call appends: all of them, or none if it raises. -/
def records : AppendCall → List LogRecord
  | .append operation key value =>
    if LogRecord.Fits ⟨operation, key, value⟩ then [⟨operation, key, value⟩] else []
  | .appendBatch operation keys values =>
    if keys.length = values.length ∧ ∀ r ∈ batchRecords operation keys values, r.Fits then
      batchRecords operation keys values
    else []

omit [Zlib] in
theorem fits_of_mem_records {c : AppendCall} {r : LogRecord} (h : r ∈ c.records) : r.Fits := by
  cases c with
  | append operation key value =>
    rw [records] at h
    split at h
    · next hfits => rwa [List.mem_singleton.mp h]
    · cases h
  | appendBatch operation keys values =>
    rw [records] at h
    split at h
    · next hfits => exact hfits.2 r h
    · cases h

/-- An append call writes its records and returns the position of the last one,
or writes nothing. -/
theorem run_cases (w : Wal) (c : AppendCall) :
    (c.records ≠ [] ∧ c.run w = (w.written (encodeLog c.records),
        .ok (w.tell + (encodeLog c.records.dropLast).length))) ∨
      (c.records = [] ∧ ((c.run w).1 = w ∨ (c.run w).1 = w.opened)) := by
  cases c with
  | append operation key value =>
    have hrun := append_eq w ⟨operation, key, value⟩
    by_cases hfits : LogRecord.Fits ⟨operation, key, value⟩
    · refine .inl ⟨by simp [records, hfits], ?_⟩
      rw [if_pos hfits] at hrun
      simpa [run, records, hfits] using hrun
    · refine .inr ⟨by simp [records, hfits], .inr ?_⟩
      rw [if_neg hfits] at hrun
      exact congrArg Prod.fst hrun
  | appendBatch operation keys values =>
    by_cases hlen : keys.length = values.length
    · have hrun := appendBatch_eq w operation hlen
      by_cases hnil : keys = []
      · refine .inr ⟨by simp [records, batchRecords, hnil], .inr ?_⟩
        rw [if_pos hnil] at hrun
        exact congrArg Prod.fst hrun
      · rw [if_neg hnil] at hrun
        by_cases hfits : ∀ r ∈ batchRecords operation keys values, r.Fits
        · have hrec : (appendBatch operation keys values).records =
              batchRecords operation keys values := if_pos ⟨hlen, hfits⟩
          rw [if_pos hfits] at hrun
          refine .inl ⟨?_, by rw [hrec]; exact hrun⟩
          rw [hrec]
          intro h
          have := congrArg List.length h
          simp only [batchRecords, List.length_map, List.length_zip, List.length_nil, ← hlen,
            Nat.min_self] at this
          exact hnil (List.eq_nil_of_length_eq_zero this)
        · rw [if_neg hfits] at hrun
          exact .inr ⟨if_neg (fun h => hfits h.2), .inr (congrArg Prod.fst hrun)⟩
    · refine .inr ⟨if_neg (fun h => hlen h.1), .inl ?_⟩
      show (w.appendBatch operation keys values).1 = w
      rw [Wal.appendBatch, if_pos hlen]

end AppendCall

/-! ## No append is lost -/

/-- The handle, if open, is on the file the name is bound to. -/
def Attached (w : Wal) : Prop := ∀ h, w.file = some h → w.disk.binding = some h.object

instance (w : Wal) : Decidable w.Attached :=
  inferInstanceAs (Decidable (∀ h ∈ w.file, w.disk.binding = some h.object))

omit [Zlib] in
/-- Opening the log again gives a handle on the file of its name. -/
theorem attached_handle {w : Wal} (h : w.Attached) :
    w.handle.1.binding = some w.handle.2.object := by
  unfold handle
  split
  · next hd hf => exact h hd hf
  · exact (NamedFile.inSync_openAppend w.disk).1

/-- Through an attached handle, what is written is the end of the file. -/
theorem Attached.holds_written {w : Wal} {log rs : List LogRecord} (ha : w.Attached)
    (h : w.Holds log) (hfits : ∀ r ∈ rs, r.Fits) : (w.written (encodeLog rs)).Holds (log ++ rs) := by
  have hbind := attached_handle ha
  have hc := content_handle h.content
  refine ⟨?_, fun r hr => (List.mem_append.mp hr).elim (h.fits r) (hfits r)⟩
  show (w.handle.1.append w.handle.2 (encodeLog rs)).1.content = _
  rw [NamedFile.content_append hbind, if_pos rfl, encodeLog_append]
  rw [NamedFile.content_of_binding hbind] at hc
  rw [Option.some.inj hc]

omit [Zlib] in
/-- Writing leaves the handle attached. -/
theorem Attached.written {w : Wal} (ha : w.Attached) (bs : Bytes) : (w.written bs).Attached := by
  rintro h ⟨rfl⟩
  exact attached_handle ha

omit [Zlib] in
theorem handle_of_file {w : Wal} {h : Handle} (hf : w.file = some h) : w.handle = (w.disk, h) := by
  rw [handle, hf]

omit [Zlib] in
theorem attached_opened {w : Wal} : w.opened.Attached ↔ w.Attached := by
  constructor
  · intro ha h hf
    have := ha w.handle.2 rfl
    rw [show w.opened.disk = w.handle.1 from rfl, handle_of_file hf] at this
    exact this
  · rintro ha h ⟨rfl⟩
    exact attached_handle ha

/-- A call on a WAL object. -/
inductive Call where
  | append (c : AppendCall)
  | truncateUpto (offset : Int)
deriving DecidableEq, Repr

/-- The object after a call. -/
def Call.run (w : Wal) : Call → Wal
  | .append c => (c.run w).1
  | .truncateUpto offset => w.truncateUpto offset

/-- The object after a sequence of calls. -/
def runCalls (w : Wal) (cs : List Call) : Wal := cs.foldl Call.run w

/-- Add a call's records to those appended since the last truncation. -/
def Call.recordsAfter (tail : List LogRecord) : Call → List LogRecord
  | .append c => tail ++ c.records
  | .truncateUpto _ => []

/-- The records appended after the last truncation of a sequence of calls. -/
def recordsSinceTruncation (cs : List Call) : List LogRecord := cs.foldl Call.recordsAfter []

/-- When a call cannot lose a record: records are appended through a handle that
is closed or still on the file of that name, behind a whole number of records. -/
def CallOk (w : Wal) : Call → Prop
  | .append c => c.records = [] ∨ w.Attached ∧ ∃ log, w.Holds log
  | .truncateUpto _ => True

/-- Every call of a sequence is made in such a situation. -/
def CallsOk : Wal → List Call → Prop
  | _, [] => True
  | w, c :: cs => CallOk w c ∧ CallsOk (c.run w) cs

/-- The file of that name ends with `tail`, and the handle is on it. -/
def TailKept (w : Wal) (tail : List LogRecord) : Prop :=
  tail = [] ∨ w.Attached ∧ ∃ log, w.Holds (log ++ tail)

/-- An append that meets the condition adds its records to what the file ends with. -/
theorem tailKept_append {w : Wal} {tail : List LogRecord} (h : TailKept w tail) (c : AppendCall)
    (hok : CallOk w (.append c)) : TailKept (c.run w).1 (tail ++ c.records) := by
  rcases c.run_cases w with ⟨hne, hrun⟩ | ⟨hnil, hrun⟩
  -- records are written: behind whole records, through a handle on the file of that name
  · obtain ⟨ha, log, hlog⟩ := hok.resolve_left hne
    have htail : ∃ log, w.Holds (log ++ tail) := by
      rcases h with rfl | h
      · exact ⟨log, by rwa [List.append_nil]⟩
      · exact h.2
    obtain ⟨log, hlog⟩ := htail
    rw [hrun]
    refine .inr ⟨ha.written _, log, ?_⟩
    rw [← List.append_assoc]
    exact ha.holds_written hlog fun r hr => AppendCall.fits_of_mem_records hr
  · rw [hnil, List.append_nil]
    rcases h with h | ⟨ha, log, hlog⟩
    · exact .inl h
    · rcases hrun with hrun | hrun <;> rw [hrun]
      · exact .inr ⟨ha, log, hlog⟩
      · exact .inr ⟨attached_opened.mpr ha, log, hlog.opened⟩

/-- A run of such calls: the file ends with all records since the last truncation. -/
theorem tailKept_run {w : Wal} {tail : List LogRecord} (h : TailKept w tail) {cs : List Call}
    (hok : CallsOk w cs) : TailKept (runCalls w cs) (cs.foldl Call.recordsAfter tail) := by
  induction cs generalizing w tail with
  | nil => exact h
  | cons c cs ih =>
    refine ih ?_ hok.2
    cases c with
    | append c => exact tailKept_append h c hok.1
    -- a truncation forgets the tail collected so far
    | truncateUpto offset => exact .inl rfl

/-- **No append is lost** when every record is appended behind whole records
through a handle that is not open yet or still on the log's file: whatever
sequence of appends and truncations a WAL object has gone through, replay ends
with the records appended after the last truncation, in order. -/
theorem replay_after_appends (w : Wal) (cs : List Call) (hok : CallsOk w cs) :
    recordsSinceTruncation cs <:+ (runCalls w cs).replay.entries.map Prod.fst := by
  rcases tailKept_run (.inl rfl : TailKept w []) hok with htail | ⟨_, log, hlog⟩
  · rw [recordsSinceTruncation, htail]
    exact List.nil_suffix
  · rw [hlog.replay, map_fst_entriesFrom]
    exact List.suffix_append _ _

end Appends

/-- Appending works until a truncation keeps a rest while the handle is open:
records `a` and `b`, a cut before `b`, then an append of `c`, which is lost. -/
theorem replay_after_appends_fails :
    ¬ ∀ (w : Wal) (cs : List Call),
      recordsSinceTruncation cs <:+ (runCalls w cs).replay.entries.map Prod.fst := by
  intro h
  have hlost := h (init .absent) [.append (.append OperationType.put [97] []),
    .append (.append OperationType.put [98] []), .truncateUpto 18,
    .append (.append OperationType.put [99] [])]
  exact absurd hlost (by decide +kernel)

/-- An append, a truncation that empties the file, and a batch behind it. -/
def thenBatch : List Call :=
  [.append (.append OperationType.put [97] []), .truncateUpto 40,
    .append (.appendBatch OperationType.put [[98], [99]] [[], []])]

theorem replay_after_appends_emptied :
    recordsSinceTruncation thenBatch <:+
      (runCalls (init .absent) thenBatch).replay.entries.map Prod.fst :=
  replay_after_appends (init .absent) thenBatch <| by
    refine ⟨.inr ⟨nofun, [], ?_⟩, trivial, .inr ⟨?_, [], ?_⟩, trivial⟩
    · exact holds_init rfl (by simp)
    · decide +kernel
    · exact ⟨by decide +kernel, by simp⟩

/-! ## Truncating at the offsets the appends returned -/

section Truncations

variable [Zlib]

/-- A WAL object, everything that was logged so far, and the offsets its appends
returned, each with the place of its record in the log. -/
structure Session where
  wal : Wal
  log : List LogRecord
  marks : List (Nat × Nat)

namespace Session

/-- A session on a file that holds the records `old`. -/
def start (disk : NamedFile) (old : List LogRecord) : Session := ⟨init disk, old, []⟩

/-- An append call; the offset it returns is remembered for the last of its
records. -/
def append (s : Session) (c : AppendCall) : Session :=
  match (c.run s.wal).2 with
  | .error _ => { s with wal := (c.run s.wal).1 }
  | .ok offset =>
    { wal := (c.run s.wal).1
      log := s.log ++ c.records
      marks := if c.records = [] then s.marks
        else s.marks ++ [(offset, (s.log ++ c.records).length - 1)] }

/-- `truncate_upto` with a remembered offset. -/
def truncateAt (s : Session) (mark : Nat × Nat) : Session :=
  { s with wal := s.wal.truncateUpto mark.1 }

end Session

/-- A step of a session: an append call, or a truncation at the `i`-th offset
returned so far. -/
inductive SessionStep where
  | append (c : AppendCall)
  | truncateAt (i : Nat)
deriving DecidableEq, Repr

/-- Replay reads exactly these records and ends normally. -/
def ReadsExactly (w : Wal) (rs : List LogRecord) : Prop :=
  w.replay.entries.map Prod.fst = rs ∧ w.replay.raised = none

/-- Right after each truncation of the session, replay reads exactly the record
it was aimed at and all that were logged after it. -/
def TruncationsExact : Session → List SessionStep → Prop
  | _, [] => True
  | s, .append c :: steps => TruncationsExact (s.append c) steps
  | s, .truncateAt i :: steps =>
    match s.marks[i]? with
    | none => TruncationsExact s steps
    | some mark => ReadsExactly (s.truncateAt mark).wal (s.log.drop mark.2) ∧
        TruncationsExact (s.truncateAt mark) steps

instance (w : Wal) (rs : List LogRecord) : Decidable (ReadsExactly w rs) :=
  inferInstanceAs (Decidable (_ ∧ _))

instance decidableTruncationsExact :
    (s : Session) → (steps : List SessionStep) → Decidable (TruncationsExact s steps)
  | _, [] => .isTrue trivial
  | s, .append c :: steps => decidableTruncationsExact (s.append c) steps
  | s, .truncateAt i :: steps =>
    match h : s.marks[i]? with
    | none =>
      have := decidableTruncationsExact s steps
      decidable_of_iff (TruncationsExact s steps) (by rw [TruncationsExact, h])
    | some mark =>
      have := decidableTruncationsExact (s.truncateAt mark) steps
      decidable_of_iff (ReadsExactly (s.truncateAt mark).wal (s.log.drop mark.2) ∧
        TruncationsExact (s.truncateAt mark) steps) (by rw [TruncationsExact, h])

/-- The arguments of the `truncate_upto` calls of a session. -/
def cuts : Session → List SessionStep → List Nat
  | _, [] => []
  | s, .append c :: steps => cuts (s.append c) steps
  | s, .truncateAt i :: steps =>
    match s.marks[i]? with
    | none => cuts s steps
    | some mark => mark.1 :: cuts (s.truncateAt mark) steps

/-- The offset of a mark is where its record starts if the whole log is written
out. -/
def MarkOf (log : List LogRecord) (mark : Nat × Nat) : Prop :=
  mark.2 < log.length ∧ mark.1 = (encodeLog (log.take mark.2)).length

omit [Zlib] in
theorem length_take_append_dropLast {log rs : List LogRecord} (hne : rs ≠ []) :
    (log ++ rs).length - 1 = (log ++ rs.dropLast).length := by
  have : 0 < rs.length := List.length_pos_of_ne_nil hne
  rw [List.length_append, List.length_append, List.length_dropLast]
  omega

/-- An offset that was returned keeps marking its record while records are added. -/
theorem MarkOf.append {log : List LogRecord} {mark : Nat × Nat} (h : MarkOf log mark)
    (rs : List LogRecord) : MarkOf (log ++ rs) mark := by
  refine ⟨by rw [List.length_append]; exact Nat.lt_add_right _ h.1, ?_⟩
  rw [List.take_append_of_le_length (Nat.le_of_lt h.1), h.2]

/-- What an append returns marks its last record. -/
theorem markOf_last {log rs : List LogRecord} (hne : rs ≠ []) :
    MarkOf (log ++ rs)
      ((encodeLog log).length + (encodeLog rs.dropLast).length, (log ++ rs).length - 1) := by
  have hpos : 0 < rs.length := List.length_pos_of_ne_nil hne
  refine ⟨by simp only [List.length_append]; omega, ?_⟩
  have hsplit : log ++ rs = (log ++ rs.dropLast) ++ [rs.getLast hne] := by
    rw [List.append_assoc, List.dropLast_concat_getLast]
  show _ = (encodeLog ((log ++ rs).take ((log ++ rs).length - 1))).length
  rw [length_take_append_dropLast hne, hsplit, List.take_left, encodeLog_append]
  exact (List.length_append ..).symm

/-- Writing out the records before a mark and those from it on. -/
theorem length_encodeLog_of_mark {log : List LogRecord} {mark : Nat × Nat} (h : MarkOf log mark) :
    (encodeLog log).length = mark.1 + (encodeLog (log.drop mark.2)).length := by
  rw [h.2, ← List.length_append, ← encodeLog_append, List.take_append_drop]

/-- Behind a mark there is at least the record marked. -/
theorem length_encodeLog_drop_pos {log : List LogRecord} {mark : Nat × Nat} (h : MarkOf log mark) :
    0 < (encodeLog (log.drop mark.2)).length := by
  refine List.length_pos_of_ne_nil ?_
  intro hnil
  have := List.drop_eq_nil_iff.mp (encodeLog_eq_nil_iff.mp hnil)
  exact absurd h.1 (Nat.not_lt.mpr this)

/-- Before the first truncation at a positive offset: the file holds the whole
log, and the handle, open as soon as an offset was returned, is at its end. -/
structure Intact (s : Session) : Prop where
  holds : s.wal.Holds s.log
  synced : s.wal.Synced
  marks : ∀ mark ∈ s.marks, MarkOf s.log mark
  opened : s.marks ≠ [] → s.wal.file ≠ none

/-- After it: the handle writes the log on in a file of its own, and the file of
that name is shorter than the log. -/
structure Severed (s : Session) : Prop where
  handle : ∃ h, s.wal.file = some h ∧ s.wal.disk.objects h.object = encodeLog s.log ∧
    h.position = (encodeLog s.log).length ∧ s.wal.disk.binding ≠ some h.object
  short : ∃ bytes, s.wal.disk.content = some bytes ∧ bytes.length < (encodeLog s.log).length
  marks : ∀ mark ∈ s.marks, MarkOf s.log mark

/-- A log opened on whole records is intact. -/
theorem intact_start {disk : NamedFile} {old : List LogRecord}
    (hold : disk.content.getD [] = encodeLog old) (hfits : ∀ r ∈ old, r.Fits) :
    Intact (.start disk old) :=
  ⟨holds_init hold hfits, synced_init disk, fun _ h => (nomatch h), fun h => absurd rfl h⟩

/-- An append call either logs its records and remembers their offset, or leaves
log and marks alone. -/
theorem Session.append_cases (s : Session) (c : AppendCall) :
    (c.records ≠ [] ∧ s.append c =
      ⟨s.wal.written (encodeLog c.records), s.log ++ c.records,
        s.marks ++ [(s.wal.tell + (encodeLog c.records.dropLast).length,
          (s.log ++ c.records).length - 1)]⟩) ∨
      ((s.append c).log = s.log ∧ (s.append c).marks = s.marks ∧
        ((s.append c).wal = s.wal ∨ (s.append c).wal = s.wal.opened)) := by
  rcases c.run_cases s.wal with ⟨hne, hrun⟩ | ⟨hnil, hrun⟩
  · exact .inl ⟨hne, by rw [append, hrun]; simp only [hne, if_false]⟩
  · refine .inr ?_
    rw [append]
    split
    · exact ⟨rfl, rfl, hrun⟩
    · exact ⟨by simp [hnil], by simp [hnil], hrun⟩

/-- Appends keep an intact log intact. -/
theorem intact_append {s : Session} (h : Intact s) (c : AppendCall) : Intact (s.append c) := by
  rcases s.append_cases c with ⟨hne, heq⟩ | ⟨hlog, hmarks, hwal⟩
  · rw [heq]
    refine ⟨holds_written h.holds h.synced fun r hr => AppendCall.fits_of_mem_records hr,
      synced_written h.synced _, ?_, fun _ hnone => nomatch hnone⟩
    intro mark hmark
    rcases List.mem_append.mp hmark with hmark | hmark
    · exact (h.marks mark hmark).append _
    · rw [List.mem_singleton.mp hmark, tell_eq h.holds h.synced]
      exact markOf_last hne
  · refine ⟨?_, ?_, by rw [hlog, hmarks]; exact h.marks, ?_⟩
    · rw [hlog]
      rcases hwal with hwal | hwal <;> rw [hwal]
      · exact h.holds
      · exact h.holds.opened
    · rcases hwal with hwal | hwal <;> rw [hwal]
      · exact h.synced
      · exact h.synced.opened
    · intro hne
      rcases hwal with hwal | hwal <;> rw [hwal]
      · exact h.opened (hmarks ▸ hne)
      · exact fun hnone => nomatch hnone

/-- Behind the cut they go on in the file left behind, and the file of the name stays shorter than
the log. -/
theorem severed_append {s : Session} (h : Severed s) (c : AppendCall) : Severed (s.append c) := by
  obtain ⟨hd, hf, hobj, hpos, hbind⟩ := h.handle
  obtain ⟨bytes, hbytes, hlt⟩ := h.short
  have hhandle : s.wal.handle = (s.wal.disk, hd) := handle_of_file hf
  rcases s.append_cases c with ⟨hne, heq⟩ | ⟨hlog, hmarks, hwal⟩
  · rw [heq]
    -- the record goes to the file left behind; the one of that name stays as it is
    refine ⟨⟨(s.wal.disk.append hd (encodeLog c.records)).2, ?_, ?_, ?_, ?_⟩, ⟨bytes, ?_, ?_⟩, ?_⟩
    · show some (s.wal.handle.1.append s.wal.handle.2 _).2 = _
      rw [hhandle]
    · show (s.wal.handle.1.append s.wal.handle.2 _).1.objects hd.object = _
      rw [hhandle, encodeLog_append, ← hobj]
      exact NamedFile.objects_write_self ..
    · show (s.wal.disk.objects hd.object).length + (encodeLog c.records).length = _
      rw [hobj, encodeLog_append, List.length_append]
    · show (s.wal.handle.1.append s.wal.handle.2 _).1.binding ≠ some hd.object
      rw [hhandle]
      exact hbind
    · show (s.wal.handle.1.append s.wal.handle.2 _).1.content = _
      obtain ⟨b, hb⟩ : ∃ b, s.wal.disk.binding = some b := by
        cases hb : s.wal.disk.binding with
        | none => rw [NamedFile.content, hb] at hbytes; cases hbytes
        | some b => exact ⟨b, rfl⟩
      rw [hhandle, NamedFile.content_append hb, if_neg (fun e : b = hd.object => hbind (e ▸ hb)),
        ← hbytes, NamedFile.content_of_binding hb]
    · show bytes.length < (encodeLog (s.log ++ c.records)).length
      rw [encodeLog_append, List.length_append]
      exact Nat.lt_add_right _ hlt
    · intro mark hmark
      rcases List.mem_append.mp hmark with hmark | hmark
      · exact (h.marks mark hmark).append _
      · rw [List.mem_singleton.mp hmark, tell, hhandle, hpos]
        exact markOf_last hne
  · have hwal' : (s.append c).wal.disk = s.wal.disk ∧ (s.append c).wal.file = some hd := by
      rcases hwal with hwal | hwal <;> rw [hwal]
      · exact ⟨rfl, hf⟩
      · exact ⟨congrArg Prod.fst hhandle, congrArg (fun x : NamedFile × Handle => some x.2) hhandle⟩
    refine ⟨⟨hd, hwal'.2, ?_⟩, ⟨bytes, ?_⟩, by rw [hlog, hmarks]; exact h.marks⟩
    · rw [hwal'.1, hlog]
      exact ⟨hobj, hpos, hbind⟩
    · rw [hwal'.1, hlog]
      exact ⟨hbytes, hlt⟩

omit [Zlib] in
theorem truncateUpto_zero (w : Wal) : w.truncateUpto 0 = w := by
  unfold truncateUpto
  split
  · rfl
  · exact if_pos (Int.le_refl 0)

omit [Zlib] in
/-- A truncation strictly inside the file renames the rest onto its name. -/
theorem truncateUpto_inside {w : Wal} {bytes : Bytes} (hc : w.disk.content = some bytes) {n : Nat}
    (hpos : 0 < n) (hlt : n < bytes.length) :
    (w.truncateUpto n).disk = w.disk.replace (bytes.drop n) ∧ (w.truncateUpto n).file = w.file := by
  unfold truncateUpto
  rw [hc]
  dsimp only
  rw [if_neg (by omega), if_neg (by omega), Int.toNat_natCast]
  exact ⟨rfl, rfl⟩

/-- The first truncation at a positive offset is exact, and severs the handle. -/
theorem intact_truncateAt {s : Session} (h : Intact s) {mark : Nat × Nat} (hm : mark ∈ s.marks) :
    ReadsExactly (s.truncateAt mark).wal (s.log.drop mark.2) := by
  have hmark := h.marks mark hm
  have hsplit : s.wal.Holds (s.log.take mark.2 ++ s.log.drop mark.2) := by
    rw [List.take_append_drop]
    exact h.holds
  have hholds := holds_truncateUpto hsplit
  rw [← hmark.2] at hholds
  show (s.wal.truncateUpto mark.1).replay.entries.map Prod.fst = _ ∧ _
  constructor
  · rw [hholds.replay, map_fst_entriesFrom]
  · show (s.wal.truncateUpto mark.1).replay.raised = none
    rw [hholds.replay]

/-- The first cut that drops something severs the handle: the name now stands for the new file. -/
theorem severed_of_intact {s : Session} (h : Intact s) {mark : Nat × Nat} (hm : mark ∈ s.marks)
    (hpos : 0 < mark.1) : Severed (s.truncateAt mark) := by
  have hmark := h.marks mark hm
  have hlen := length_encodeLog_of_mark hmark
  have hrest := length_encodeLog_drop_pos hmark
  obtain ⟨hd, hf⟩ := Option.ne_none_iff_exists'.mp (h.opened (List.ne_nil_of_mem hm))
  have hsync := h.synced hd hf
  have hcontent := h.holds.content
  have hobj := objects_of_inSync hsync hcontent
  obtain ⟨hdisk, hfile⟩ := truncateUpto_inside hcontent hpos (by omega)
  -- the rest was renamed onto the name as a new object, the handle keeps the old one
  have hltObj : hd.object ≠ s.wal.disk.fresh := Nat.ne_of_lt (s.wal.file_lt hd hf)
  refine ⟨⟨hd, hfile.trans hf, ?_, ?_, ?_⟩, ⟨(encodeLog s.log).drop mark.1, ?_, ?_⟩, h.marks⟩
  · show (s.wal.truncateUpto mark.1).disk.objects hd.object = _
    rw [hdisk]
    exact (Function.update_of_ne hltObj ..).trans hobj
  · rw [hsync.2, hobj]
    rfl
  · show (s.wal.truncateUpto mark.1).disk.binding ≠ some hd.object
    rw [hdisk]
    exact NamedFile.not_inSync_replace (s.wal.file_lt hd hf) _
  · show (s.wal.truncateUpto mark.1).disk.content = _
    rw [hdisk, NamedFile.content_replace]
  · show _ < (encodeLog s.log).length
    rw [List.length_drop]
    omega

/-- Whatever a later truncation leaves is too short to be what it was aimed at. -/
theorem severed_truncateAt {s : Session} (h : Severed s) {mark : Nat × Nat} (hm : mark ∈ s.marks) :
    ¬ReadsExactly (s.truncateAt mark).wal (s.log.drop mark.2) := by
  have hmark := h.marks mark hm
  have hlen := length_encodeLog_of_mark hmark
  have hrest := length_encodeLog_drop_pos hmark
  obtain ⟨bytes, hbytes, hlt⟩ := h.short
  rintro ⟨hread, -⟩
  have hshort : ∃ left, (s.truncateAt mark).wal.disk.content = some left ∧
      left.length < (encodeLog (s.log.drop mark.2)).length := by
    show ∃ left, (s.wal.truncateUpto mark.1).disk.content = some left ∧ _
    unfold truncateUpto
    rw [hbytes]
    dsimp only
    split
    · exact ⟨bytes, hbytes, by omega⟩
    · split
      · exact ⟨[], NamedFile.content_truncate, hrest⟩
      · exact ⟨_, NamedFile.content_replace .., by rw [List.length_drop]; omega⟩
  obtain ⟨left, hleft, hleftlt⟩ := hshort
  -- a file cannot be replayed as more bytes than it has
  have hle := length_encodeLog_replay left
  rw [← hleft, ← Wal.replay, hread] at hle
  omega

/-- In a severed session no truncation is exact. -/
theorem severed_iff {s : Session} (h : Severed s) (steps : List SessionStep) :
    TruncationsExact s steps ↔ cuts s steps = [] := by
  induction steps generalizing s with
  | nil => exact ⟨fun _ => rfl, fun _ => trivial⟩
  | cons step steps ih =>
    cases step with
    | append c => exact ih (severed_append h c)
    | truncateAt i =>
      rw [TruncationsExact, cuts]
      cases hm : s.marks[i]? with
      | none => exact ih h
      | some mark =>
        -- one more truncation is one too many
        exact ⟨fun hexact => absurd hexact.1 (severed_truncateAt h (List.mem_of_getElem? hm)),
          fun hnil => nomatch hnil⟩

/-- From an intact log, all cuts are exact exactly when only the last of them drops anything. -/
theorem intact_iff {s : Session} (h : Intact s) (steps : List SessionStep) :
    TruncationsExact s steps ↔ ∀ o ∈ (cuts s steps).dropLast, o = 0 := by
  induction steps generalizing s with
  | nil => exact ⟨fun _ => nofun, fun _ => trivial⟩
  | cons step steps ih =>
    cases step with
    | append c => exact ih (intact_append h c)
    | truncateAt i =>
      rw [TruncationsExact, cuts]
      cases hi : s.marks[i]? with
      | none => exact ih h
      | some mark =>
        have hm := List.mem_of_getElem? hi
        have hexact := intact_truncateAt h hm
        rcases Nat.eq_zero_or_pos mark.1 with hzero | hpos
        · -- nothing is cut off, the session goes on as before
          have hsame : s.truncateAt mark = s := by
            rw [Session.truncateAt, hzero]
            show { s with wal := s.wal.truncateUpto 0 } = s
            rw [truncateUpto_zero]
          show ReadsExactly _ _ ∧ TruncationsExact (s.truncateAt mark) steps ↔
            ∀ o ∈ (mark.1 :: cuts (s.truncateAt mark) steps).dropLast, o = 0
          rw [and_iff_right hexact, hsame, ih h, hzero]
          cases cuts s steps with
          | nil => simp
          | cons o os => simp
        · show ReadsExactly _ _ ∧ TruncationsExact _ steps ↔
            ∀ o ∈ (mark.1 :: cuts (s.truncateAt mark) steps).dropLast, o = 0
          rw [and_iff_right hexact, severed_iff (severed_of_intact h hm hpos)]
          cases cuts (s.truncateAt mark) steps with
          | nil => simp
          | cons o os =>
            refine ⟨fun hnil => (nomatch hnil), ?_⟩
            intro hall
            exact absurd (hall mark.1 List.mem_cons_self) (Nat.ne_of_gt hpos)

/-- **Only one truncation is exact**: on a WAL object opened on whole records,
each truncation at an offset an append returned leaves exactly the record it was
aimed at and the later ones, if and only if all truncations but the last are at
offset 0, where nothing is cut off. -/
theorem truncationsExact_iff (disk : NamedFile) (old : List LogRecord)
    (hold : disk.content.getD [] = encodeLog old) (hfits : ∀ r ∈ old, r.Fits)
    (steps : List SessionStep) :
    TruncationsExact (.start disk old) steps ↔ ∀ o ∈ (cuts (.start disk old) steps).dropLast, o = 0 :=
  intact_iff (intact_start hold hfits) steps

end Truncations

/-- Three records, and truncations at the offsets of the second and the third. -/
def twoCuts : List SessionStep :=
  [.append (.append OperationType.put [97] []), .append (.append OperationType.put [98] []),
    .append (.append OperationType.put [99] []), .truncateAt 1, .truncateAt 2]

/-- The second cut, made at the third record's old offset, empties the file. -/
theorem truncations_fail :
    ¬ ∀ steps : List SessionStep, TruncationsExact (.start .absent []) steps :=
  not_forall.mpr ⟨twoCuts, by decide +kernel⟩

theorem truncationsExact_twoCuts :
    TruncationsExact (.start .absent []) twoCuts ↔
      ∀ o ∈ (cuts (.start .absent []) twoCuts).dropLast, o = 0 :=
  truncationsExact_iff .absent [] rfl (by simp) twoCuts

end Wal

end Logvine
