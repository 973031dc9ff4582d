import Logvine.Storage.WalTruncation

/-!
# Logs with a damaged end

What replay makes of bytes that are not a log: behind the complete records of a
log stands a tail that a crash, a failed write or a bad disk left there.

- `readRecord_eq`: the exits of one round of the reader, one per field of the
  record it tries to read;
- `SoundTail`: the tails the reader gets through without raising
  (`raised_replay_append_iff`); the records in front of the tail are always read,
  at their offsets (`replay_append`);
- `replay_appendCalls`: on an undamaged log, appends and replay agree on records
  and offsets;
- `replay_behind_torn`: appends behind a torn record are not replayed.

The reader stops without an exception where a payload is cut off or does not match its
checksum (`wal.py`, 115–117 and 123–125), but it raises at one to three bytes where a length
should be (112) and at a payload too short for its own fields (120, 127–133). An engine
replays in its constructor, so the kind of tail decides whether it starts at all.
-/

namespace Logvine

section Tails

variable [Zlib]

/-! ## One round of the reader -/

/-- The number in the length field at the front of `t`. -/
def declaredLength (t : Bytes) : Nat := beNat (t.take 4)

/-- The length field is complete, and so is the payload it announces. -/
def Complete (t : Bytes) : Prop := 4 + declaredLength t ≤ t.length

/-- The payload the length field announces, as far as it is there. -/
def declaredPayload (t : Bytes) : Bytes := (t.drop 4).take (declaredLength t)

/-- The part of the payload the checksum covers. -/
def checkedData (t : Bytes) : Bytes := (declaredPayload t).take (declaredLength t - 4)

/-- The payload ends with the checksum of its other bytes. -/
def ChecksumOk (t : Bytes) : Prop :=
  4 ≤ declaredLength t ∧
    (Zlib.crc32 (checkedData t)).toNat = beNat ((declaredPayload t).drop (declaredLength t - 4))

/-- The checked part has room for the operation, both length fields and the key. -/
def FieldsFit (data : Bytes) : Prop := 9 + beNat ((data.drop 1).take 4) ≤ data.length

instance (t : Bytes) : Decidable (Complete t) := inferInstanceAs (Decidable (_ ≤ _))

instance (t : Bytes) : Decidable (ChecksumOk t) := inferInstanceAs (Decidable (_ ∧ _))

omit [Zlib] in
theorem unpackU32_take {bs : Bytes} (h : 4 ≤ bs.length) : unpackU32 (bs.take 4) = .ok (beNat (bs.take 4)) :=
  if_pos (by rw [List.length_take]; omega)

omit [Zlib] in
theorem unpackU32_of_short {bs : Bytes} (h : bs.length < 4) : unpackU32 bs = .error .structError :=
  if_neg (Nat.ne_of_lt h)

omit [Zlib] in
/-- The fields of a record are cut out without an error iff there is room for them. -/
theorem decodeData_ok_iff (data : Bytes) : (∃ r, decodeData data = .ok r) ↔ FieldsFit data := by
  unfold FieldsFit
  cases data with
  | nil => simp [decodeData]
  | cons op rest =>
    simp only [decodeData, bind, Except.bind]
    -- room for the key length, then for the key and the value length
    by_cases h1 : 4 ≤ rest.length
    · have hlen : unpackU32 (((op :: rest).drop 1).take 4) = .ok (beNat (((op :: rest).drop 1).take 4)) :=
        unpackU32_take h1
      rw [hlen]
      simp only [raising]
      generalize beNat (((op :: rest).drop 1).take 4) = keyLen
      by_cases h2 : 9 + keyLen ≤ (op :: rest).length
      · have hvalue : 4 ≤ ((op :: rest).drop (5 + keyLen)).length := by
          rw [List.length_drop]
          omega
        rw [unpackU32_take hvalue]
        exact ⟨fun _ => h2, fun _ => ⟨_, rfl⟩⟩
      · have hvalue : (((op :: rest).drop (5 + keyLen)).take 4).length < 4 := by
          rw [List.length_take, List.length_drop]
          omega
        rw [unpackU32_of_short hvalue]
        refine ⟨?_, fun h => absurd h h2⟩
        rintro ⟨_, ⟨⟩⟩
    · have hlen : (((op :: rest).drop 1).take 4).length < 4 := by
        rw [List.length_take, List.drop_succ_cons, List.drop_zero]
        omega
      rw [unpackU32_of_short hlen]
      constructor
      · rintro ⟨_, ⟨⟩⟩
      · intro h
        rw [List.length_cons] at h
        omega

omit [Zlib] in
theorem decodeData_error {data : Bytes} {h : Halt} (herr : decodeData data = .error h) :
    ∃ e, h = .raised e := by
  cases data with
  | nil => exact ⟨_, (Except.error.inj herr).symm⟩
  | cons op rest =>
    have hraising : ∀ (x : Except Error Nat) (h' : Halt), raising x = .error h' → ∃ e, h' = .raised e := by
      intro x h' hx
      cases x with
      | ok n => cases hx
      | error e => exact ⟨e, (Except.error.inj hx).symm⟩
    simp only [decodeData, bind, Except.bind] at herr
    split at herr
    · next h' hx => exact Except.error.inj herr ▸ hraising _ _ hx
    · split at herr
      · next h' hx => exact Except.error.inj herr ▸ hraising _ _ hx
      · cases herr

/-- The exits of one round, in the order of the source. -/
theorem readRecord_eq (t : Bytes) :
    readRecord t =
      if t.length < 4 then .error (.raised .structError)
      else if ¬Complete t then .error .broken
      else if declaredLength t < 4 then .error (.raised .structError)
      else if ¬ChecksumOk t then .error .broken
      else (decodeData (checkedData t)).map fun r => (r, 4 + declaredLength t) := by
  by_cases h4 : t.length < 4
  · have hshort : (t.take 4).length < 4 := by rw [List.length_take]; omega
    rw [if_pos h4, readRecord, unpackU32_of_short hshort]
    rfl
  rw [if_neg h4, readRecord, unpackU32_take (Nat.not_lt.mp h4)]
  show (do
    let payload := declaredPayload t
    if payload.length < declaredLength t then throw Halt.broken
    let data := payload.take (payload.length - 4)
    let stored ← raising (unpackU32 (payload.drop (payload.length - 4)))
    if (Zlib.crc32 data).toNat ≠ stored then throw Halt.broken
    let record ← decodeData data
    return (record, 4 + declaredLength t)) = _
  -- the checks that are left compare the payload announced with the one that is there
  have hlen : (declaredPayload t).length = min (declaredLength t) (t.length - 4) := by
    rw [declaredPayload, List.length_take, List.length_drop]
  by_cases hc : Complete t
  · have hfull : (declaredPayload t).length = declaredLength t := by
      unfold Complete at hc
      omega
    rw [if_neg (not_not.mpr hc)]
    dsimp only
    rw [if_neg (by omega), hfull]
    by_cases hn : declaredLength t < 4
    · have hsum : ((declaredPayload t).drop (declaredLength t - 4)).length < 4 := by
        rw [List.length_drop]
        omega
      rw [if_pos hn]
      show (raising (unpackU32 ((declaredPayload t).drop (declaredLength t - 4))) >>= _) = _
      rw [unpackU32_of_short hsum]
      rfl
    · have hsum : ((declaredPayload t).drop (declaredLength t - 4)).length = 4 := by
        rw [List.length_drop]
        omega
      rw [if_neg hn]
      show (raising (unpackU32 ((declaredPayload t).drop (declaredLength t - 4))) >>= _) = _
      rw [unpackU32, if_pos hsum]
      show (do
        if (Zlib.crc32 (checkedData t)).toNat ≠ beNat ((declaredPayload t).drop (declaredLength t - 4)) then
          throw Halt.broken
        let record ← decodeData (checkedData t)
        return (record, 4 + declaredLength t)) = _
      by_cases hsame :
          (Zlib.crc32 (checkedData t)).toNat = beNat ((declaredPayload t).drop (declaredLength t - 4))
      · have hok : ChecksumOk t := ⟨Nat.not_lt.mp hn, hsame⟩
        rw [if_neg (not_not.mpr hsame), if_neg (not_not.mpr hok)]
        show (decodeData (checkedData t) >>= fun record => _) = _
        cases decodeData (checkedData t) <;> rfl
      · have hbad : ¬ChecksumOk t := fun h => hsame h.2
        rw [if_pos hsame, if_pos hbad]
        rfl
  · rw [if_pos hc]
    dsimp only
    rw [if_pos (by unfold Complete at hc; omega)]
    rfl

/-! ## Tails the reader gets through -/

/-- The bytes the reader gets through without raising: nothing; the beginning of a
record from the length field on; a record that fails its checksum, which must be
there in full; or a record whose fields fit, followed by such bytes. -/
inductive SoundTail : Bytes → Prop where
  | nil : SoundTail []
  | cut {t : Bytes} (hlength : 4 ≤ t.length) (hcut : ¬Complete t) : SoundTail t
  | corrupt {t : Bytes} (hfull : Complete t) (hroom : 4 ≤ declaredLength t) (hsum : ¬ChecksumOk t) :
      SoundTail t
  | record {t : Bytes} (hfull : Complete t) (hsum : ChecksumOk t) (hfields : FieldsFit (checkedData t))
      (hrest : SoundTail (t.drop (4 + declaredLength t))) : SoundTail t

theorem soundTail_iff {t : Bytes} (hne : t ≠ []) :
    SoundTail t ↔ 4 ≤ t.length ∧ (Complete t → 4 ≤ declaredLength t ∧
      (ChecksumOk t → FieldsFit (checkedData t) ∧ SoundTail (t.drop (4 + declaredLength t)))) := by
  have hlong : Complete t → 4 ≤ t.length := fun h => Nat.le_trans (Nat.le_add_right ..) h
  constructor
  · intro h
    cases h with
    | nil => exact absurd rfl hne
    | cut hlength hcut => exact ⟨hlength, fun hc => absurd hc hcut⟩
    | corrupt hfull hroom hsum => exact ⟨hlong hfull, fun _ => ⟨hroom, fun hok => absurd hok hsum⟩⟩
    | record hfull hsum hfields hrest =>
      exact ⟨hlong hfull, fun _ => ⟨hsum.1, fun _ => ⟨hfields, hrest⟩⟩⟩
  · rintro ⟨hlength, h⟩
    by_cases hc : Complete t
    · obtain ⟨hroom, h⟩ := h hc
      by_cases hsum : ChecksumOk t
      · exact .record hc hsum (h hsum).1 (h hsum).2
      · exact .corrupt hc hroom hsum
    · exact .cut hlength hc

/-- One round of the reader, followed by the rest of the loop. -/
theorem replayLoop_succ (rounds pos : Nat) {t : Bytes} (hne : t ≠ []) :
    replayLoop (rounds + 1) pos t =
      match readRecord t with
      | .error .broken => ⟨[], none⟩
      | .error (.raised e) => ⟨[], some e⟩
      | .ok (r, size) =>
        let later := replayLoop rounds (pos + size) (t.drop size)
        ⟨(r, pos) :: later.entries, later.raised⟩ := by
  obtain ⟨b, bs, rfl⟩ := List.exists_cons_of_ne_nil hne
  rfl

/-- With rounds for every byte, the loop raises nothing exactly on sound bytes. -/
theorem raised_replayLoop_iff {rounds : Nat} (pos : Nat) {t : Bytes} (h : t.length ≤ rounds) :
    (replayLoop rounds pos t).raised = none ↔ SoundTail t := by
  -- by induction on the rounds, along the exits of `readRecord_eq`
  induction rounds generalizing pos t with
  | zero =>
    have hnil : t = [] := List.eq_nil_of_length_eq_zero (Nat.le_zero.mp h)
    rw [hnil]
    exact ⟨fun _ => .nil, fun _ => rfl⟩
  | succ rounds ih =>
    rcases eq_or_ne t [] with rfl | hne
    · rw [replayLoop_nil]
      exact ⟨fun _ => .nil, fun _ => rfl⟩
    rw [replayLoop_succ rounds pos hne, soundTail_iff hne, readRecord_eq]
    by_cases h4 : t.length < 4
    · rw [if_pos h4]
      exact ⟨fun hraised => (nomatch hraised), fun hsound => absurd hsound.1 (Nat.not_le.mpr h4)⟩
    rw [if_neg h4, and_iff_right (Nat.not_lt.mp h4)]
    by_cases hc : Complete t
    swap
    · rw [if_pos hc]
      exact ⟨fun _ hc' => absurd hc' hc, fun _ => rfl⟩
    rw [if_neg (not_not.mpr hc)]
    by_cases hn : declaredLength t < 4
    · rw [if_pos hn]
      exact ⟨fun hraised => (nomatch hraised), fun hsound => absurd (hsound hc).1 (Nat.not_le.mpr hn)⟩
    rw [if_neg hn]
    by_cases hsum : ChecksumOk t
    swap
    · rw [if_pos hsum]
      exact ⟨fun _ _ => ⟨Nat.not_lt.mp hn, fun hok => absurd hok hsum⟩, fun _ => rfl⟩
    rw [if_neg (not_not.mpr hsum)]
    have hrest : (t.drop (4 + declaredLength t)).length ≤ rounds := by
      rw [List.length_drop]
      omega
    cases hdata : decodeData (checkedData t) with
    | ok r =>
      have hfields : FieldsFit (checkedData t) := (decodeData_ok_iff _).mp ⟨r, hdata⟩
      exact (ih _ hrest).trans
        ⟨fun hsound _ => ⟨hsum.1, fun _ => ⟨hfields, hsound⟩⟩, fun hsound => ((hsound hc).2 hsum).2⟩
    | error halt =>
      obtain ⟨e, rfl⟩ := decodeData_error hdata
      refine ⟨fun hraised => (nomatch hraised), ?_⟩
      intro hsound
      obtain ⟨r, hr⟩ := (decodeData_ok_iff _).mpr ((hsound hc).2 hsum).1
      rw [hr] at hdata
      cases hdata

/-- The records in front of a tail are read at their offsets, whatever the tail is. -/
theorem replay_append {rs : List LogRecord} (h : ∀ r ∈ rs, r.Fits) (t : Bytes) :
    ∃ rounds, t.length ≤ rounds ∧ replay (some (encodeLog rs ++ t)) =
      let later := replayLoop rounds (encodeLog rs).length t
      ⟨entriesFrom 0 rs ++ later.entries, later.raised⟩ := by
  obtain ⟨spare, hspare⟩ := Nat.exists_eq_add_of_le (length_le_length_encodeLog rs)
  refine ⟨spare + t.length, Nat.le_add_left .., ?_⟩
  have hloop := replayLoop_encodeLog h (spare + t.length) 0 t
  rw [← Nat.add_assoc, ← hspare, Nat.zero_add] at hloop
  rw [replay, List.length_append]
  exact hloop

theorem raised_replay_append_iff {rs : List LogRecord} (h : ∀ r ∈ rs, r.Fits) (t : Bytes) :
    (replay (some (encodeLog rs ++ t))).raised = none ↔ SoundTail t := by
  obtain ⟨rounds, hrounds, heq⟩ := replay_append h t
  rw [heq]
  exact raised_replayLoop_iff _ hrounds

/-! ## Torn records -/

/-- A torn record: some of its bytes, from the first on, but not all. -/
structure Torn (t : Bytes) (r : LogRecord) : Prop where
  isPrefix : t <+: encodeRecord r
  nonempty : t ≠ []
  proper : t ≠ encodeRecord r

theorem Torn.length_lt {t : Bytes} {r : LogRecord} (h : Torn t r) : t.length < (encodeRecord r).length :=
  lt_of_le_of_ne h.isPrefix.length_le fun heq => h.proper (h.isPrefix.eq_of_length heq)

/-- A torn record that has kept its length field is incomplete. -/
theorem Torn.not_complete {t : Bytes} {r : LogRecord} (h : Torn t r) (hfits : r.Fits)
    (hlength : 4 ≤ t.length) : ¬Complete t := by
  obtain ⟨rest, hrest⟩ := h.isPrefix
  have hdata := r.length_data
  have hfit : r.data.length + 4 < 2 ^ 32 := by unfold LogRecord.Fits at hfits; omega
  have hfront : (t ++ rest).take 4 = t.take 4 := List.take_append_of_le_length hlength
  -- the length field announces the whole record, of which something is missing
  have hfield : t.take 4 = beBytes 4 (r.data.length + 4) := by
    rw [← hfront, hrest, encodeRecord, take_beBytes_append]
  have hlen := length_encodeRecord r
  have hlt := h.length_lt
  rw [Complete, declaredLength, hfield, beNat_beBytes hfit]
  omega

/-- The reader gets through a torn record iff its length field is there. -/
theorem Torn.sound_iff {t : Bytes} {r : LogRecord} (h : Torn t r) (hfits : r.Fits) :
    SoundTail t ↔ 4 ≤ t.length := by
  rw [soundTail_iff h.nonempty]
  exact ⟨fun hsound => hsound.1,
    fun hlength => ⟨hlength, fun hc => absurd hc (h.not_complete hfits hlength)⟩⟩

/-- Unless a whole record with a correct checksum stands at the front of `t`, the
reader reads nothing there. -/
theorem entries_replayLoop_of_not_record {t : Bytes} (h : ¬(Complete t ∧ ChecksumOk t)) (rounds pos : Nat) :
    (replayLoop rounds pos t).entries = [] := by
  cases rounds with
  | zero => rfl
  | succ rounds =>
    rcases eq_or_ne t [] with rfl | hne
    · rfl
    rw [replayLoop_succ rounds pos hne, readRecord_eq]
    by_cases h4 : t.length < 4
    · rw [if_pos h4]
    rw [if_neg h4]
    by_cases hc : Complete t
    · rw [if_neg (not_not.mpr hc)]
      by_cases hn : declaredLength t < 4
      · rw [if_pos hn]
      · rw [if_neg hn, if_pos fun hsum => h ⟨hc, hsum⟩]
    · rw [if_pos hc]

/-- A torn record itself yields nothing. -/
theorem Torn.entries_replayLoop {t : Bytes} {r : LogRecord} (h : Torn t r) (hfits : r.Fits)
    (rounds pos : Nat) : (replayLoop rounds pos t).entries = [] := by
  refine entries_replayLoop_of_not_record ?_ rounds pos
  intro hrec
  have hlength : 4 ≤ t.length := Nat.le_trans (Nat.le_add_right ..) hrec.1
  exact h.not_complete hfits hlength hrec.1

theorem Torn.replay {log : List LogRecord} {t : Bytes} {r : LogRecord} (h : Torn t r)
    (hlog : ∀ r ∈ log, r.Fits) (hfits : r.Fits) :
    (Logvine.replay (some (encodeLog log ++ t))).entries = entriesFrom 0 log := by
  obtain ⟨rounds, -, heq⟩ := replay_append hlog t
  rw [heq]
  show entriesFrom 0 log ++ (replayLoop rounds _ t).entries = _
  rw [h.entries_replayLoop hfits, List.append_nil]

namespace Wal

/-! ## Runs of appends -/

/-- A run of append calls: the object afterwards and what each call returned. -/
def runAppends : Wal → List AppendCall → Wal × List (Except Error Nat)
  | w, [] => (w, [])
  | w, c :: cs => ((runAppends (c.run w).1 cs).1, (c.run w).2 :: (runAppends (c.run w).1 cs).2)

/-- All records a run appends. -/
def recordsOf (cs : List AppendCall) : List LogRecord := cs.flatMap AppendCall.records

theorem holds_append {w : Wal} {log : List LogRecord} (h : w.Holds log) (hs : w.Synced) (c : AppendCall) :
    (c.run w).1.Holds (log ++ c.records) ∧ (c.run w).1.Synced := by
  rcases c.run_cases w with ⟨_, hrun⟩ | ⟨hnil, hrun⟩
  · rw [hrun]
    exact ⟨holds_written h hs fun r hr => AppendCall.fits_of_mem_records hr, synced_written hs _⟩
  · rw [hnil, List.append_nil]
    rcases hrun with hrun | hrun <;> rw [hrun]
    · exact ⟨h, hs⟩
    · exact ⟨h.opened, hs.opened⟩

theorem holds_runAppends {w : Wal} {log : List LogRecord} (h : w.Holds log) (hs : w.Synced)
    (cs : List AppendCall) : (runAppends w cs).1.Holds (log ++ recordsOf cs) := by
  induction cs generalizing w log with
  | nil =>
    rw [recordsOf, List.flatMap_nil, List.append_nil]
    exact h
  | cons c cs ih =>
    obtain ⟨hholds, hsync⟩ := holds_append h hs c
    rw [recordsOf, List.flatMap_cons, ← List.append_assoc]
    exact ih hholds hsync

theorem entriesFrom_append (pos : Nat) (rs rs' : List LogRecord) :
    entriesFrom pos (rs ++ rs') = entriesFrom pos rs ++ entriesFrom (pos + (encodeLog rs).length) rs' := by
  induction rs generalizing pos with
  | nil => rfl
  | cons r rs ih =>
    rw [List.cons_append, entriesFrom, ih, entriesFrom, encodeLog_cons, List.length_append, List.cons_append,
      Nat.add_assoc]

theorem length_entriesFrom (pos : Nat) (rs : List LogRecord) : (entriesFrom pos rs).length = rs.length := by
  rw [← List.length_map (f := Prod.fst), map_fst_entriesFrom]

/-- The entry of a record in the middle of a log. -/
theorem getElem?_entriesFrom (rs rs' : List LogRecord) (r : LogRecord) :
    (entriesFrom 0 (rs ++ r :: rs'))[rs.length]? = some (r, (encodeLog rs).length) := by
  rw [entriesFrom_append, List.getElem?_append_right (by rw [length_entriesFrom]), length_entriesFrom,
    Nat.sub_self, entriesFrom, Nat.zero_add]
  rfl

/-- The offset an append call returns is the one its last record will be replayed at,
as long as the file only grows. -/
theorem offset_append {w : Wal} {log : List LogRecord} (h : w.Holds log) (hs : w.Synced) {c : AppendCall}
    (hne : c.records ≠ []) (later : List LogRecord) :
    ∃ offset, (c.run w).2 = .ok offset ∧
      (entriesFrom 0 (log ++ c.records ++ later))[(log ++ c.records).length - 1]? =
        some (c.records.getLast hne, offset) := by
  rcases c.run_cases w with ⟨_, hrun⟩ | ⟨hnil, -⟩
  · refine ⟨_, by rw [hrun], ?_⟩
    have hsplit : log ++ c.records ++ later =
        (log ++ c.records.dropLast) ++ c.records.getLast hne :: later := by
      conv_lhs => rw [← List.dropLast_concat_getLast hne]
      simp only [List.append_assoc, List.singleton_append]
    rw [length_take_append_dropLast hne, hsplit, getElem?_entriesFrom, tell_eq h hs, encodeLog_append,
      List.length_append]
  · exact absurd hnil hne

/-- The same for the calls of a run. -/
theorem offsets_runAppends {w : Wal} {log : List LogRecord} (h : w.Holds log) (hs : w.Synced)
    (cs : List AppendCall) {i : Nat} {c : AppendCall} (hc : cs[i]? = some c) (hne : c.records ≠ []) :
    ∃ offset, (runAppends w cs).2[i]? = some (.ok offset) ∧
      (entriesFrom 0 (log ++ recordsOf cs))[(log ++ recordsOf (cs.take (i + 1))).length - 1]? =
        some (c.records.getLast hne, offset) := by
  -- by induction on the calls before it: what they append goes in front of its records
  induction cs generalizing w log i with
  | nil => cases hc
  | cons c' cs ih =>
    cases i with
    | zero =>
      obtain rfl : c' = c := Option.some.inj hc
      obtain ⟨offset, hok, hentry⟩ := offset_append h hs hne (recordsOf cs)
      refine ⟨offset, congrArg some hok, ?_⟩
      rw [List.append_assoc] at hentry
      simpa [recordsOf] using hentry
    | succ i =>
      obtain ⟨hholds, hsync⟩ := holds_append h hs c'
      obtain ⟨offset, hok, hentry⟩ := ih hholds hsync hc
      refine ⟨offset, hok, ?_⟩
      rw [List.append_assoc, List.append_assoc] at hentry
      exact hentry

/-- **Decoding undoes encoding**: after any run of append calls on a file of records,
replay yields the old records and then, in call order, all that were appended, and
the offset it yields with the last record of a call is the one the call returned. -/
theorem replay_runAppends (disk : NamedFile) (old : List LogRecord)
    (hold : disk.content.getD [] = encodeLog old) (hfits : ∀ r ∈ old, r.Fits) (cs : List AppendCall) :
    (runAppends (init disk) cs).1.replay = ⟨entriesFrom 0 (old ++ recordsOf cs), none⟩ ∧
      ∀ (i : Nat) (c : AppendCall), cs[i]? = some c → (hne : c.records ≠ []) →
        ∃ offset, (runAppends (init disk) cs).2[i]? = some (.ok offset) ∧
          (runAppends (init disk) cs).1.replay.entries[(old ++ recordsOf (cs.take (i + 1))).length - 1]? =
            some (c.records.getLast hne, offset) := by
  have hholds := holds_init hold hfits
  have hreplay := (holds_runAppends hholds (synced_init disk) cs).replay
  refine ⟨hreplay, ?_⟩
  intro i c hc hne
  rw [hreplay]
  exact offsets_runAppends hholds (synced_init disk) cs hc hne

/-! ## Appends behind a torn record -/

theorem content_append_torn {w : Wal} {bytes : Bytes} (hc : w.disk.content = some bytes) (ha : w.Attached)
    (c : AppendCall) :
    (c.run w).1.disk.content = some (bytes ++ encodeLog c.records) ∧ (c.run w).1.Attached := by
  rcases c.run_cases w with ⟨_, hrun⟩ | ⟨hnil, hrun⟩
  · rw [hrun]
    have hbind := attached_handle ha
    have hbytes := content_handle hc
    rw [NamedFile.content_of_binding hbind] at hbytes
    refine ⟨?_, ha.written _⟩
    show (w.handle.1.append w.handle.2 (encodeLog c.records)).1.content = _
    rw [NamedFile.content_append hbind, if_pos rfl, Option.some.inj hbytes]
  · rw [hnil, encodeLog_nil, List.append_nil]
    rcases hrun with hrun | hrun <;> rw [hrun]
    · exact ⟨hc, ha⟩
    · exact ⟨content_handle hc, attached_opened.mpr ha⟩

/-- Appends write behind whatever is in the file. -/
theorem content_runAppends {w : Wal} {bytes : Bytes} (hc : w.disk.content = some bytes) (ha : w.Attached)
    (cs : List AppendCall) :
    (runAppends w cs).1.disk.content = some (bytes ++ encodeLog (recordsOf cs)) := by
  induction cs generalizing w bytes with
  | nil =>
    rw [recordsOf, List.flatMap_nil, encodeLog_nil, List.append_nil]
    exact hc
  | cons c cs ih =>
    obtain ⟨hc', ha'⟩ := content_append_torn hc ha c
    rw [recordsOf, List.flatMap_cons, encodeLog_append, ← List.append_assoc]
    exact ih hc' ha'

/-- **Appends behind a torn record are lost**: the complete records and all later ones
are replayed if nothing was appended behind the torn record and its length field is
there, and otherwise not, unless the bytes appended happen to complete the torn record
to one that passes its checksum. -/
theorem replay_behind_torn (w : Wal) (log : List LogRecord) (t : Bytes) (r : LogRecord)
    (hc : w.disk.content = some (encodeLog log ++ t)) (ha : w.Attached) (hlog : ∀ r ∈ log, r.Fits)
    (hfits : r.Fits) (htorn : Torn t r) (cs : List AppendCall) :
    (recordsOf cs = [] ∧ 4 ≤ t.length → ReadsExactly (runAppends w cs).1 (log ++ recordsOf cs)) ∧
      (ReadsExactly (runAppends w cs).1 (log ++ recordsOf cs) →
        (recordsOf cs = [] ∧ 4 ≤ t.length) ∨
          (Complete (t ++ encodeLog (recordsOf cs)) ∧ ChecksumOk (t ++ encodeLog (recordsOf cs)))) := by
  have hcontent := content_runAppends hc ha cs
  rw [List.append_assoc] at hcontent
  constructor
  · rintro ⟨hnil, hlength⟩
    rw [hnil, encodeLog_nil, List.append_nil] at hcontent
    rw [ReadsExactly, Wal.replay, hcontent, htorn.replay hlog hfits, hnil, List.append_nil,
      map_fst_entriesFrom, raised_replay_append_iff hlog]
    exact ⟨rfl, (htorn.sound_iff hfits).mpr hlength⟩
  · intro hread
    by_cases hrec : Complete (t ++ encodeLog (recordsOf cs)) ∧ ChecksumOk (t ++ encodeLog (recordsOf cs))
    · exact .inr hrec
    · refine .inl ?_
      obtain ⟨hentries, hraised⟩ := hread
      rw [Wal.replay, hcontent] at hentries hraised
      -- nothing is read behind the log, so there is nothing to be read
      obtain ⟨rounds, -, heq⟩ := replay_append hlog (t ++ encodeLog (recordsOf cs))
      rw [heq] at hentries
      dsimp only at hentries
      rw [entries_replayLoop_of_not_record hrec, List.append_nil, map_fst_entriesFrom] at hentries
      have hnil : recordsOf cs = [] := List.self_eq_append_right.mp hentries
      rw [raised_replay_append_iff hlog, hnil, encodeLog_nil, List.append_nil, htorn.sound_iff hfits] at hraised
      exact ⟨hnil, hraised⟩

end Wal

end Tails

namespace Wal

/-- A batch and a deletion behind it. -/
def batchThenDelete : List AppendCall :=
  [.appendBatch OperationType.put [[97], []] [[49], []], .append OperationType.delete [97] []]

theorem replay_runAppends_batchThenDelete :
    (runAppends (init .absent) batchThenDelete).1.replay = ⟨entriesFrom 0 (recordsOf batchThenDelete), none⟩ ∧
      ∀ (i : Nat) (c : AppendCall), batchThenDelete[i]? = some c → (hne : c.records ≠ []) →
        ∃ offset, (runAppends (init .absent) batchThenDelete).2[i]? = some (.ok offset) ∧
          (runAppends (init .absent) batchThenDelete).1.replay.entries[
              (recordsOf (batchThenDelete.take (i + 1))).length - 1]? = some (c.records.getLast hne, offset) :=
  replay_runAppends .absent [] rfl (by simp) batchThenDelete

/-- A file that ends with the first `n` bytes of a record, opened again. -/
def tornAfter (n : Nat) : Wal := init (NamedFile.absent.replace ((encodeRecord ⟨1, [97], [49]⟩).take n))

/-- A record written behind five bytes of a torn one is not replayed. -/
theorem replay_behind_torn_fails :
    ¬ ∀ (w : Wal) (log : List LogRecord) (t : Bytes) (r : LogRecord) (cs : List AppendCall),
      w.disk.content = some (encodeLog log ++ t) → w.Attached → (∀ r ∈ log, r.Fits) → r.Fits → Torn t r →
        ReadsExactly (runAppends w cs).1 (log ++ recordsOf cs) := by
  intro h
  have hread := h (tornAfter 5) [] ((encodeRecord ⟨1, [97], [49]⟩).take 5) ⟨1, [97], [49]⟩
    [.append OperationType.put [98] [50]] (by decide +kernel) (by decide +kernel) (by simp)
    (by decide +kernel) ⟨List.take_prefix .., by decide +kernel, by decide +kernel⟩
  revert hread
  decide +kernel

/-- A log of one record that ends with five bytes of a torn one, opened again. -/
def tornBehindRecord : Wal :=
  init (NamedFile.absent.replace (encodeLog [⟨1, [99], [51]⟩] ++ (encodeRecord ⟨1, [97], [49]⟩).take 5))

/-- The record in front is read, and the one appended behind the torn one is not. -/
theorem replay_behind_torn_tornAfter :
    ReadsExactly (runAppends tornBehindRecord []).1 [⟨1, [99], [51]⟩] ∧
      ¬ReadsExactly (runAppends tornBehindRecord [.append OperationType.put [98] [50]]).1
        [⟨1, [99], [51]⟩, ⟨1, [98], [50]⟩] := by
  have h := replay_behind_torn tornBehindRecord [⟨1, [99], [51]⟩]
    ((encodeRecord ⟨1, [97], [49]⟩).take 5) ⟨1, [97], [49]⟩ (by decide +kernel)
    (by decide +kernel) (by decide +kernel) (by decide +kernel)
    ⟨List.take_prefix .., by decide +kernel, by decide +kernel⟩
  refine ⟨(h []).1 (by decide +kernel), fun hread => ?_⟩
  have hcompleted := (h [.append OperationType.put [98] [50]]).2 hread
  revert hcompleted
  decide +kernel

end Wal

end Logvine
