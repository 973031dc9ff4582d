import Logvine.Storage.Engine

/-!
# Starting an engine

`LSMStorageEngine.__init__`: the tables are what the saved manifest lists, the
memtable is what replaying the log leaves in it.

- `replayed`: the memtable a list of logged records leads to; what it answers is the
  last record of each key (`layer_replayed`);
- `init_eq`: an engine starts iff the replay raises nothing;
- `starts_iff_soundTail`: on a log with a damaged end, iff the end is a sound tail;
- `batch_all_or_nothing_iff`: which cuts through a batch leave all or nothing of it.

The manifest is loaded before the log is replayed (`engine.py`, 111–117), and the replay
goes through `MemTable.put` and `delete` (125–131), which never rotate. So the records of a
log all end up in one active buffer, however many they are, and with the largest of their
offsets. A batch is logged as a run of independent records (`wal.py`, 245–247), so a cut can
fall between two of them.
-/

namespace Logvine

open Layer

namespace LSMStorageEngine

section Recovery

variable [Zlib]

/-- One round of the loop of `LSMStorageEngine.replay_wal`. -/
def replayEntry (m : MemTable) (entry : WalEntry) : MemTable :=
  let m :=
    if entry.1.operation = OperationType.put then m.put entry.1.key entry.1.value
    else if entry.1.operation = OperationType.delete then m.delete entry.1.key
    else m
  m.setMaxWalOffset entry.2

/-- `LSMStorageEngine.replay_wal`. -/
def replayWal (m : MemTable) (w : Wal) : Except Error MemTable :=
  match w.replay with
  | ⟨entries, none⟩ => .ok (entries.foldl replayEntry m)
  | ⟨_, some err⟩ => .error err

/-- `LSMStorageEngine.__init__` in a directory with this log file, these table files
and this saved manifest. -/
def init (storagePath : Path) (memtableMaxSize : Int) (disk : NamedFile) (t : Tables) :
    Except Error (LSMStorageEngine Wal) := do
  let wal := Wal.init disk
  let memtable ← replayWal (.init memtableMaxSize) wal
  return ⟨storagePath, memtableMaxSize, memtable, wal, t.reload⟩

/-- The memtable after these records have been replayed from the front of a log. -/
def replayed (memtableMaxSize : Int) (rs : List LogRecord) : MemTable :=
  (entriesFrom 0 rs).foldl replayEntry (.init memtableMaxSize)

/-- The engine after they have been replayed. -/
def started (storagePath : Path) (memtableMaxSize : Int) (disk : NamedFile) (t : Tables)
    (rs : List LogRecord) : LSMStorageEngine Wal :=
  ⟨storagePath, memtableMaxSize, replayed memtableMaxSize rs, Wal.init disk, t.reload⟩

/-- The constructor replays the log and loads the manifest; it raises exactly when the replay
does. -/
theorem init_eq (storagePath : Path) (memtableMaxSize : Int) (disk : NamedFile) (t : Tables) :
    init storagePath memtableMaxSize disk t =
      match (Wal.init disk).replay with
      | ⟨entries, none⟩ => .ok ⟨storagePath, memtableMaxSize,
          entries.foldl replayEntry (.init memtableMaxSize), Wal.init disk, t.reload⟩
      | ⟨_, some err⟩ => .error err := by
  rw [init, replayWal]
  split <;> rfl

/-- An engine starts on a log of whole records. -/
theorem init_of_log (storagePath : Path) (memtableMaxSize : Int) (disk : NamedFile) (t : Tables)
    {log : List LogRecord} (h : disk.content.getD [] = encodeLog log) (hfits : ∀ r ∈ log, r.Fits) :
    init storagePath memtableMaxSize disk t = .ok (started storagePath memtableMaxSize disk t log) := by
  rw [init_eq, (Wal.holds_init h hfits).replay]
  rfl

/-! ## Damaged logs -/

omit [Zlib] in
/-- Opening the log creates the file if it is missing, and keeps what is in it. -/
theorem content_init (disk : NamedFile) : (Wal.init disk).disk.content = some (disk.content.getD []) :=
  NamedFile.content_touch

/-- **Replay and damaged ends**: whatever stands behind the records of a log, the
reader yields these first, at their offsets. It raises nothing, so that the engine
starts, iff what stands there is a sound tail. -/
theorem starts_iff_soundTail (rs : List LogRecord) (hfits : ∀ r ∈ rs, r.Fits) (t : Bytes)
    (storagePath : Path) (memtableMaxSize : Int) (disk : NamedFile) (tables : Tables)
    (h : disk.content.getD [] = encodeLog rs ++ t) :
    (entriesFrom 0 rs <+: (Wal.init disk).replay.entries ∧ (Wal.init disk).replay.raised = none ∧
      ∃ e, init storagePath memtableMaxSize disk tables = .ok e) ↔ SoundTail t := by
  have hreplay : (Wal.init disk).replay = Logvine.replay (some (encodeLog rs ++ t)) := by
    rw [Wal.replay, content_init, h]
  obtain ⟨rounds, -, heq⟩ := replay_append hfits t
  have hfront : entriesFrom 0 rs <+: (Wal.init disk).replay.entries := by
    rw [hreplay, heq]
    exact List.prefix_append _ _
  rw [← raised_replay_append_iff hfits t, ← hreplay]
  constructor
  · exact fun hall => hall.2.1
  · intro hraised
    refine ⟨hfront, hraised, ?_⟩
    rw [init_eq]
    generalize (Wal.init disk).replay = r at hraised
    obtain ⟨entries, raised⟩ := r
    obtain rfl : raised = none := hraised
    exact ⟨_, rfl⟩

/-! ## What a replay leaves in the memtable -/

/-- What one record says about keys. -/
def recordLayer (r : LogRecord) : Layer Bytes Bytes :=
  if r.operation = OperationType.put then MemTable.entry r.key r.value
  else if r.operation = OperationType.delete then MemTable.entry r.key tombstone
  else Layer.empty

/-- What a log says about keys: the last record of a key decides. -/
def logLayer (rs : List LogRecord) : Layer Bytes Bytes := resolve (rs.reverse.map recordLayer)

omit [Zlib] in
@[simp] theorem logLayer_nil : logLayer [] = Layer.empty := rfl

omit [Zlib] in
/-- Later records lie above earlier ones. -/
theorem logLayer_append (rs rs' : List LogRecord) :
    logLayer (rs ++ rs') = above (logLayer rs') (logLayer rs) := by
  rw [logLayer, List.reverse_append, List.map_append, resolve_append]
  rfl

omit [Zlib] in
theorem logLayer_singleton (r : LogRecord) : logLayer [r] = recordLayer r := resolve_singleton _

omit [Zlib] in
/-- Replaying a record sets its entry, or for a deletion the mark of it. -/
theorem get?_replayEntry (m : MemTable) (entry : WalEntry) :
    (replayEntry m entry).data.get? = above (recordLayer entry.1) m.data.get? := by
  unfold replayEntry recordLayer
  split
  · exact MemTable.get?_set_eq ..
  · split
    · exact MemTable.get?_set_eq ..
    · rfl

omit [Zlib] in
/-- The replay never rotates. -/
theorem frozenQueue_replayEntry (m : MemTable) (entry : WalEntry) :
    (replayEntry m entry).frozenQueue = m.frozenQueue := by
  unfold replayEntry
  split
  · rfl
  · split <;> rfl

omit [Zlib] in
/-- The offset kept is the largest one met. -/
theorem maxWalOffset_replayEntry (m : MemTable) (entry : WalEntry) :
    (replayEntry m entry).maxWalOffset = max m.maxWalOffset entry.2 := by
  unfold replayEntry
  split
  · rfl
  · split <;> rfl

theorem entriesFrom_concat (rs : List LogRecord) (r : LogRecord) :
    entriesFrom 0 (rs ++ [r]) = entriesFrom 0 rs ++ [(r, (encodeLog rs).length)] := by
  rw [Wal.entriesFrom_append, Nat.zero_add]
  rfl

/-- One record more is one replay step more. -/
theorem replayed_concat (memtableMaxSize : Int) (rs : List LogRecord) (r : LogRecord) :
    replayed memtableMaxSize (rs ++ [r]) =
      replayEntry (replayed memtableMaxSize rs) (r, (encodeLog rs).length) := by
  rw [replayed, entriesFrom_concat, List.foldl_append]
  rfl

/-- A replay puts everything into the active dictionary. -/
theorem replayed_spec (memtableMaxSize : Int) (rs : List LogRecord) :
    (replayed memtableMaxSize rs).frozenQueue = [] ∧
      (replayed memtableMaxSize rs).data.get? = logLayer rs ∧
      (replayed memtableMaxSize rs).maxWalOffset = (encodeLog rs.dropLast).length := by
  -- the last record decides, so the induction is from the end of the log
  induction rs using List.reverseRecOn with
  | nil => exact ⟨rfl, rfl, rfl⟩
  | append_singleton rs r ih =>
    obtain ⟨hqueue, hdata, hoffset⟩ := ih
    rw [replayed_concat]
    refine ⟨(frozenQueue_replayEntry ..).trans hqueue, ?_, ?_⟩
    · rw [get?_replayEntry, hdata, logLayer_append, logLayer_singleton]
    · rw [maxWalOffset_replayEntry, hoffset, List.dropLast_concat]
      -- offsets grow along the log: the one just read is the largest
      refine Nat.max_eq_right ?_
      rcases List.eq_nil_or_concat rs with rfl | ⟨rs', r', rfl⟩
      · exact Nat.le_refl 0
      · rw [List.concat_eq_append, List.dropLast_concat, encodeLog_append]
        exact (Nat.le_add_right ..).trans_eq List.length_append.symm

/-- After the replay the memtable answers as the records of the log do. -/
theorem layer_replayed (memtableMaxSize : Int) (rs : List LogRecord) :
    (replayed memtableMaxSize rs).layer = logLayer rs := by
  obtain ⟨hqueue, hdata, -⟩ := replayed_spec memtableMaxSize rs
  rw [MemTable.layer, MemTable.frozenLayers, hqueue, hdata]
  exact above_empty _

/-! ## Batches cut by a crash -/

/-- A cut through a log falls between two of its records or tears one. -/
theorem take_encodeLog (rs : List LogRecord) (n : Nat) :
    ∃ done rest part, rs = done ++ rest ∧ (encodeLog rs).take n = encodeLog done ++ part ∧
      (part = [] ∨ ∃ r later, rest = r :: later ∧ Torn part r) := by
  induction rs generalizing n with
  | nil => exact ⟨[], [], [], rfl, List.take_nil, .inl rfl⟩
  | cons r rs ih =>
    -- the cut falls into the first record or behind it
    rcases Nat.lt_or_ge n (encodeRecord r).length with hlt | hge
    · have htake : (encodeLog (r :: rs)).take n = (encodeRecord r).take n :=
        List.take_append_of_le_length (Nat.le_of_lt hlt)
      refine ⟨[], r :: rs, (encodeRecord r).take n, rfl, htake, ?_⟩
      rcases eq_or_ne ((encodeRecord r).take n) [] with hnil | hne
      · exact .inl hnil
      · refine .inr ⟨r, rs, rfl, List.take_prefix n _, hne, ?_⟩
        intro heq
        have := congrArg List.length heq
        rw [List.length_take] at this
        omega
    · obtain ⟨done, rest, part, rfl, htake, hpart⟩ := ih (n - (encodeRecord r).length)
      refine ⟨r :: done, rest, part, rfl, ?_, hpart⟩
      rw [encodeLog_cons, List.take_append, List.take_of_length_le hge, htake, encodeLog_cons,
        List.append_assoc]

/-- More records put make another memtable. -/
theorem replayed_ne_of_more {memtableMaxSize : Int} {rs more : List LogRecord}
    (hput : ∀ r ∈ more, r.operation = OperationType.put) (hne : more ≠ []) :
    replayed memtableMaxSize rs ≠ replayed memtableMaxSize (rs ++ more) := by
  intro heq
  have hoffset := congrArg MemTable.maxWalOffset heq
  rw [(replayed_spec _ rs).2.2, (replayed_spec _ (rs ++ more)).2.2,
    List.dropLast_append_of_ne_nil hne, encodeLog_append, List.length_append] at hoffset
  rcases List.eq_nil_or_concat rs with rfl | ⟨rs', r, rfl⟩
  · -- the first record of a log has offset 0, but its key is in the dictionary
    obtain ⟨r, later, rfl⟩ := List.exists_cons_of_ne_nil hne
    have hdata := congrFun (congrArg (fun m : MemTable => m.data.get?) heq) r.key
    rw [(replayed_spec _ []).2.1, (replayed_spec _ ([] ++ r :: later)).2.1, List.nil_append] at hdata
    have hlater : later = [] := by
      cases later with
      | nil => rfl
      | cons r' later =>
        rw [List.dropLast_cons_of_ne_nil (by simp), encodeLog_cons, List.length_append,
          length_encodeRecord] at hoffset
        simp only [List.dropLast_nil, encodeLog_nil, List.length_nil] at hoffset
        omega
    rw [hlater, logLayer_singleton, recordLayer, if_pos (hput r List.mem_cons_self), MemTable.entry,
      if_pos rfl] at hdata
    cases hdata
  · rw [List.concat_eq_append, List.dropLast_concat, encodeLog_append, List.length_append,
      encodeLog_cons, List.length_append, length_encodeRecord] at hoffset
    omega

/-- The engine that starts has applied, on top of the log, all of the batch or nothing
of it. -/
def AllOrNothing (storagePath : Path) (memtableMaxSize : Int) (disk : NamedFile) (t : Tables)
    (log batch : List LogRecord) : Prop :=
  init storagePath memtableMaxSize disk t = .ok (started storagePath memtableMaxSize disk t log) ∨
    init storagePath memtableMaxSize disk t =
      .ok (started storagePath memtableMaxSize disk t (log ++ batch))

/-- The cut leaves nothing of the batch, only a part of its first record that has the
length field, or everything. -/
def CutHarmless (batch : List LogRecord) (cut : Nat) : Prop :=
  cut = 0 ∨ (4 ≤ cut ∧ ∃ r ∈ batch.head?, cut < (encodeRecord r).length) ∨
    cut = (encodeLog batch).length

/-- The file of a log after a crash that left only its first `n` bytes. -/
def cutAfter (w : Wal) (n : Nat) : NamedFile := NamedFile.absent.replace ((w.disk.content.getD []).take n)

/-- Two starts that differ in the records replayed only are equal when the memtables are. -/
theorem started_inj {storagePath : Path} {memtableMaxSize : Int} {disk : NamedFile} {t : Tables}
    {rs rs' : List LogRecord} :
    (Except.ok (started storagePath memtableMaxSize disk t rs) : Except Error _) =
        .ok (started storagePath memtableMaxSize disk t rs') ↔
      replayed memtableMaxSize rs = replayed memtableMaxSize rs' := by
  constructor
  · exact fun h => congrArg LSMStorageEngine.memtable (Except.ok.inj h)
  · intro h
    rw [started, started, h]

/-- A log that ends between two records of the batch holds all of it or nothing exactly when the
cut is at one end. -/
theorem allOrNothing_of_whole {storagePath : Path} {memtableMaxSize : Int} {disk : NamedFile} {t : Tables}
    {log done rest : List LogRecord} (hdisk : disk.content.getD [] = encodeLog (log ++ done))
    (hfits : ∀ r ∈ log ++ done, r.Fits) (hput : ∀ r ∈ done ++ rest, r.operation = OperationType.put) :
    AllOrNothing storagePath memtableMaxSize disk t log (done ++ rest) ↔ done = [] ∨ rest = [] := by
  rw [AllOrNothing, init_of_log storagePath memtableMaxSize disk t hdisk hfits, started_inj, started_inj,
    ← List.append_assoc]
  refine or_congr ⟨?_, fun hnil => by rw [hnil, List.append_nil]⟩
    ⟨?_, fun hnil => by rw [hnil, List.append_nil]⟩
  · intro heq
    by_contra hne
    exact replayed_ne_of_more (fun r hr => hput r (List.mem_append_left _ hr)) hne heq.symm
  · intro heq
    by_contra hne
    exact replayed_ne_of_more (fun r hr => hput r (List.mem_append_right _ hr)) hne heq

/-- A cut within a record drops that record, and with it the rest of the batch. -/
theorem allOrNothing_of_torn {storagePath : Path} {memtableMaxSize : Int} {disk : NamedFile} {t : Tables}
    {log done rest : List LogRecord} {part : Bytes} {r : LogRecord}
    (hdisk : disk.content.getD [] = encodeLog (log ++ done) ++ part) (hfits : ∀ r ∈ log ++ done, r.Fits)
    (hr : r.Fits) (htorn : Torn part r) (hput : ∀ r ∈ done ++ rest, r.operation = OperationType.put)
    (hrest : rest ≠ []) :
    AllOrNothing storagePath memtableMaxSize disk t log (done ++ rest) ↔ 4 ≤ part.length ∧ done = [] := by
  have hreplay : (Wal.init disk).replay = Logvine.replay (some (encodeLog (log ++ done) ++ part)) := by
    rw [Wal.replay, content_init, hdisk]
  have hentries := htorn.replay hfits hr
  have hraised := (raised_replay_append_iff hfits part).trans (htorn.sound_iff hr)
  rw [← hreplay] at hentries hraised
  -- with its length field the torn record ends the replay; without it unpacking raises
  by_cases hlength : 4 ≤ part.length
  · have hwhole : (Wal.init disk).replay = ⟨entriesFrom 0 (log ++ done), none⟩ := by
      rw [← hentries, ← hraised.mpr hlength]
    have hinit : init storagePath memtableMaxSize disk t =
        .ok (started storagePath memtableMaxSize disk t (log ++ done)) := by
      rw [init_eq, hwhole]
      rfl
    rw [AllOrNothing, hinit, started_inj, started_inj, ← List.append_assoc, and_iff_right hlength]
    constructor
    · rintro (heq | heq)
      · by_contra hne
        exact replayed_ne_of_more (fun r hr => hput r (List.mem_append_left _ hr)) hne heq.symm
      · exact absurd heq (replayed_ne_of_more (fun r hr => hput r (List.mem_append_right _ hr)) hrest)
    · intro hnil
      rw [hnil, List.append_nil]
      exact .inl rfl
  · have hfail : ∀ e, init storagePath memtableMaxSize disk t ≠ .ok e := by
      intro e
      rw [init_eq]
      generalize (Wal.init disk).replay = rep at hraised
      obtain ⟨entries, raised⟩ := rep
      cases raised with
      | none => exact absurd (hraised.mp rfl) hlength
      | some err => rintro ⟨⟩
    exact ⟨fun h => h.elim (fun h => absurd h (hfail _)) (fun h => absurd h (hfail _)),
      fun h => absurd h.1 hlength⟩

/-- **Batches and crashes**: after a crash that left the log and the first `cut` bytes of
what `append_batch` wrote behind it, the engine comes up with all of the batch or none
of it if and only if the cut is harmless. -/
theorem batch_all_or_nothing_iff (w : Wal) (log : List LogRecord) (hlog : w.Holds log) (hsync : w.Synced)
    (keys values : List Bytes) (hlen : keys.length = values.length)
    (hfits : ∀ r ∈ Wal.batchRecords OperationType.put keys values, r.Fits) (storagePath : Path)
    (memtableMaxSize : Int) (t : Tables) (cut : Nat)
    (hcut : cut ≤ (encodeLog (Wal.batchRecords OperationType.put keys values)).length) :
    AllOrNothing storagePath memtableMaxSize
        (cutAfter (w.appendBatch OperationType.put keys values).1 ((encodeLog log).length + cut)) t log
        (Wal.batchRecords OperationType.put keys values) ↔
      CutHarmless (Wal.batchRecords OperationType.put keys values) cut := by
  have hput : ∀ r ∈ Wal.batchRecords OperationType.put keys values, r.operation = OperationType.put := by
    intro r hr
    obtain ⟨p, -, rfl⟩ := List.mem_map.mp hr
    rfl
  have hwritten := (Wal.holds_append hlog hsync (.appendBatch OperationType.put keys values)).1
  have hrecords : (Wal.AppendCall.appendBatch OperationType.put keys values).records =
      Wal.batchRecords OperationType.put keys values := if_pos ⟨hlen, hfits⟩
  rw [hrecords] at hwritten
  generalize Wal.batchRecords OperationType.put keys values = batch at hput hfits hcut hwritten ⊢
  have hdisk : (cutAfter (w.appendBatch OperationType.put keys values).1
      ((encodeLog log).length + cut)).content.getD [] = encodeLog log ++ (encodeLog batch).take cut := by
    have hcontent : (w.appendBatch OperationType.put keys values).1.disk.content =
        some (encodeLog (log ++ batch)) := hwritten.content
    rw [cutAfter, NamedFile.content_replace, hcontent, Option.getD_some, Option.getD_some, encodeLog_append,
      List.take_length_add_append]
  generalize cutAfter (w.appendBatch OperationType.put keys values).1 ((encodeLog log).length + cut) = disk
    at hdisk ⊢
  obtain ⟨done, rest, part, rfl, htake, hpart⟩ := take_encodeLog batch cut
  have hlogdone : ∀ r ∈ log ++ done, r.Fits := fun r hr => (List.mem_append.mp hr).elim (hlog.fits r)
    fun hr => hfits r (List.mem_append_left _ hr)
  have hcutlen : cut = (encodeLog done).length + part.length := by
    have := congrArg List.length htake
    rw [List.length_take, Nat.min_eq_left hcut, List.length_append] at this
    exact this
  rw [htake, ← List.append_assoc, ← encodeLog_append] at hdisk
  have hdone : (encodeLog done).length = 0 ↔ done = [] := by
    rw [List.length_eq_zero_iff, Wal.encodeLog_eq_nil_iff]
  -- a cut that leaves a whole record is behind the first one
  have hfirst : ∀ r ∈ (done ++ rest).head?, done ≠ [] → (encodeRecord r).length ≤ (encodeLog done).length := by
    intro r hr hne
    obtain ⟨r', later, rfl⟩ := List.exists_cons_of_ne_nil hne
    obtain rfl : r' = r := by simpa using hr
    rw [encodeLog_cons, List.length_append]
    exact Nat.le_add_right ..
  rw [CutHarmless, encodeLog_append, List.length_append, hcutlen]
  rcases hpart with rfl | ⟨r, later, rfl, htorn⟩
  -- the cut is between two records
  · rw [List.append_nil] at hdisk
    have hrest : (encodeLog rest).length = 0 ↔ rest = [] := by
      rw [List.length_eq_zero_iff, Wal.encodeLog_eq_nil_iff]
    rw [allOrNothing_of_whole hdisk hlogdone hput, List.length_nil, Nat.add_zero, hdone]
    constructor
    · rintro (hnil | hnil)
      · exact .inl hnil
      · exact .inr (.inr (by rw [hrest.mpr hnil, Nat.add_zero]))
    · rintro (hnil | ⟨h4, r, hr, hlt⟩ | heq)
      · exact .inl hnil
      · refine .inl ?_
        by_contra hne
        exact absurd (hfirst r hr hne) (Nat.not_le.mpr hlt)
      · exact .inr (hrest.mp (by omega))
  -- the cut tears a record
  · have hr : r.Fits := hfits r (List.mem_append_right _ List.mem_cons_self)
    have hlt := htorn.length_lt
    have hpos : 0 < part.length := List.length_pos_of_ne_nil htorn.nonempty
    rw [allOrNothing_of_torn hdisk hlogdone hr htorn hput (by simp)]
    constructor
    · rintro ⟨h4, rfl⟩
      refine .inr (.inl ⟨?_, r, by simp, ?_⟩)
      · rw [encodeLog_nil, List.length_nil]
        omega
      · rw [encodeLog_nil, List.length_nil]
        omega
    · rintro (hzero | ⟨h4, r', hr', hlt'⟩ | heq)
      · omega
      · have hnil : done = [] := by
          by_contra hne
          have := hfirst r' hr' hne
          omega
        refine ⟨?_, hnil⟩
        rw [hnil, encodeLog_nil, List.length_nil] at h4
        omega
      · rw [encodeLog_cons, List.length_append] at heq
        omega

end Recovery

/-- Four zero bytes behind an empty log keep the engine from starting. -/
theorem starts_fails :
    ¬ ∀ (rs : List LogRecord) (t : Bytes) (storagePath : Path) (memtableMaxSize : Int) (disk : NamedFile)
      (tables : Tables), (∀ r ∈ rs, r.Fits) → disk.content.getD [] = encodeLog rs ++ t →
        entriesFrom 0 rs <+: (Wal.init disk).replay.entries ∧ (Wal.init disk).replay.raised = none ∧
          ∃ e, init storagePath memtableMaxSize disk tables = .ok e := by
  intro h
  have hraised := (h [] [0, 0, 0, 0] "db" 100 (NamedFile.absent.replace [0, 0, 0, 0]) .fresh (by simp)
    (by decide +kernel)).2.1
  revert hraised
  decide +kernel

theorem starts_iff_soundTail_garbage :
    (entriesFrom 0 [⟨1, [97], []⟩] <+:
        (Wal.init (NamedFile.absent.replace (encodeLog [⟨1, [97], []⟩] ++ [0, 0, 0, 9]))).replay.entries ∧
      (Wal.init (NamedFile.absent.replace (encodeLog [⟨1, [97], []⟩] ++ [0, 0, 0, 9]))).replay.raised = none ∧
      ∃ e, init "db" 100 (NamedFile.absent.replace (encodeLog [⟨1, [97], []⟩] ++ [0, 0, 0, 9])) .fresh =
        .ok e) ↔ SoundTail [0, 0, 0, 9] :=
  starts_iff_soundTail [⟨1, [97], []⟩] (by decide +kernel) [0, 0, 0, 9] "db" 100 _ .fresh (by decide +kernel)

/-- A log of one record. -/
def oneRecord : Wal := Wal.init (NamedFile.absent.replace (encodeLog [⟨1, [122], []⟩]))

theorem holds_oneRecord : oneRecord.Holds [⟨1, [122], []⟩] :=
  Wal.holds_init (by decide +kernel) (by decide +kernel)

/-- A crash between the two records of a batch leaves half of it. -/
theorem batch_all_or_nothing_fails :
    ¬ ∀ (w : Wal) (log : List LogRecord) (keys values : List Bytes) (cut : Nat), w.Holds log → w.Synced →
      keys.length = values.length → (∀ r ∈ Wal.batchRecords OperationType.put keys values, r.Fits) →
      cut ≤ (encodeLog (Wal.batchRecords OperationType.put keys values)).length →
        AllOrNothing "db" 100
          (cutAfter (w.appendBatch OperationType.put keys values).1 ((encodeLog log).length + cut)) .fresh log
          (Wal.batchRecords OperationType.put keys values) := by
  intro h
  have hall := h oneRecord [⟨1, [122], []⟩] [[97], [98]] [[49], [50]] 19 holds_oneRecord
    (Wal.synced_init _) rfl (by decide +kernel) (by decide +kernel)
  -- the offsets the memtable would have reached without the batch and with all of it
  have hoffset := hall.imp (congrArg fun r => r.map fun e => e.memtable.maxWalOffset)
    (congrArg fun r => r.map fun e => e.memtable.maxWalOffset)
  revert hoffset
  decide +kernel

theorem batch_all_or_nothing_iff_oneRecord :
    AllOrNothing "db" 100 (cutAfter (oneRecord.appendBatch OperationType.put [[97], [98]] [[49], [50]]).1
        ((encodeLog [⟨1, [122], []⟩]).length + 7)) .fresh [⟨1, [122], []⟩]
        (Wal.batchRecords OperationType.put [[97], [98]] [[49], [50]]) ↔
      CutHarmless (Wal.batchRecords OperationType.put [[97], [98]] [[49], [50]]) 7 :=
  batch_all_or_nothing_iff oneRecord [⟨1, [122], []⟩] holds_oneRecord (Wal.synced_init _) [[97], [98]]
    [[49], [50]] rfl (by decide +kernel) "db" 100 .fresh 7 (by decide +kernel)

end LSMStorageEngine

end Logvine
