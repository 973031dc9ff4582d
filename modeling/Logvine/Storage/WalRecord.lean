import Logvine.Storage.Basic

/-!
# WAL records

The byte format of the write-ahead log (`WAL.construct_record`) and the reader
that walks it on startup (`WAL.replay`). A record is a 32-bit length followed by
a payload: one byte of operation, the length-prefixed key and value, and the
CRC-32 of these.

- `readRecord_encodeRecord`: the reader undoes the writer, whatever follows.
- `replay_encodeLog`: a file of records is replayed as those records, each at
  its byte offset.
- `length_encodeLog_replay`: what replay yields cannot be longer, written out again,
  than the file it was read from; a file that lost bytes lost records.

The checksum enters as an arbitrary function from bytes to 32-bit numbers
(`Zlib`); `crc32` is the one the program links.

The writer is `wal.py`, 199–217, the reader 103–139. The reader trusts a length and looks at
the checksum behind it, so a record is found from its own first byte on or not at all; and
no result rests on the checksum telling two byte strings apart.
-/

namespace Logvine

/-- `zlib.crc32`, as far as the log depends on it. -/
class Zlib where
  crc32 : Bytes → UInt32

/-- One bit of CRC-32 with the reflected polynomial. -/
def crcBit (c : Nat) : Nat := if c % 2 = 1 then (c / 2) ^^^ 0xEDB88320 else c / 2

/-- One byte of CRC-32. -/
def crcByte (c : Nat) (b : UInt8) : Nat :=
  crcBit (crcBit (crcBit (crcBit (crcBit (crcBit (crcBit (crcBit (c ^^^ b.toNat))))))))

/-- CRC-32 as zlib computes it. -/
def crc32 (bs : Bytes) : UInt32 :=
  UInt32.ofNat (bs.foldl crcByte 0xFFFFFFFF ^^^ 0xFFFFFFFF)

instance : Zlib := ⟨crc32⟩

/-- The check value of CRC-32: the checksum of `b"123456789"`. -/
example : crc32 [49, 50, 51, 52, 53, 54, 55, 56, 57] = 0xCBF43926 := by decide +kernel

/-- What one record of the log says. -/
structure LogRecord where
  operation : UInt8
  key : Bytes
  value : Bytes
deriving DecidableEq, Repr

/-- `OperationType.PUT.value` and `OperationType.DELETE.value`. -/
def OperationType.put : UInt8 := 1

@[inherit_doc OperationType.put]
def OperationType.delete : UInt8 := 2

variable [Zlib]

/-! ## Writing -/

/-- `WAL.construct_record`. -/
def constructRecord (operationType : UInt8) (key value : Bytes) : Except Error Bytes := do
  let keyLen ← packU32 key.length
  let valueLen ← packU32 value.length
  let record := operationType :: (keyLen ++ key ++ valueLen ++ value)
  let checksum ← packU32 (Zlib.crc32 record).toNat
  let record := record ++ checksum
  let recordLength ← packU32 record.length
  return recordLength ++ record

/-- The part of a record its checksum covers. -/
def LogRecord.data (r : LogRecord) : Bytes :=
  r.operation :: (beBytes 4 r.key.length ++ r.key ++ beBytes 4 r.value.length ++ r.value)

/-- The bytes of a record without the length limits of its fields. -/
def encodeRecord (r : LogRecord) : Bytes :=
  beBytes 4 (r.data.length + 4) ++ (r.data ++ beBytes 4 (Zlib.crc32 r.data).toNat)

/-- All lengths of the record fit their 32-bit fields. -/
def LogRecord.Fits (r : LogRecord) : Prop := r.key.length + r.value.length + 13 < 2 ^ 32

instance (r : LogRecord) : Decidable r.Fits := inferInstanceAs (Decidable (_ < _))

omit [Zlib] in
/-- The data of a record: operation, two lengths, key and value. -/
theorem LogRecord.length_data (r : LogRecord) :
    r.data.length = r.key.length + r.value.length + 9 := by
  simp only [data, List.length_cons, List.length_append, length_beBytes]
  omega

/-- The record on disk: eight bytes more, for the length and the checksum. -/
theorem length_encodeRecord (r : LogRecord) :
    (encodeRecord r).length = r.key.length + r.value.length + 17 := by
  simp only [encodeRecord, List.length_append, length_beBytes, r.length_data]
  omega

/-- `construct_record` accepts exactly the records that fit, and writes their
encoding. -/
theorem constructRecord_eq (r : LogRecord) :
    constructRecord r.operation r.key r.value =
      if r.Fits then .ok (encodeRecord r) else .error .structError := by
  have hcrc : (Zlib.crc32 r.data).toNat < 2 ^ 32 := (Zlib.crc32 r.data).toNat_lt
  have hlen := r.length_data
  have hfits : r.Fits ↔ r.key.length + r.value.length + 13 < 2 ^ 32 := Iff.rfl
  -- `Fits` bounds the record as a whole, which is the last of the four lengths packed
  by_cases hk : r.key.length < 2 ^ 32
  · by_cases hv : r.value.length < 2 ^ 32
    · have hdata : r.operation ::
          (beBytes 4 r.key.length ++ r.key ++ beBytes 4 r.value.length ++ r.value) = r.data := rfl
      simp only [constructRecord, packU32_of_lt hk, packU32_of_lt hv, bind, Except.bind, hdata,
        packU32_of_lt hcrc, List.length_append, length_beBytes]
      by_cases hr : r.data.length + 4 < 2 ^ 32
      · rw [packU32_of_lt hr, if_pos (hfits.mpr (by omega))]
        rfl
      · rw [packU32_of_not_lt hr, if_neg (fun h => hr (by have := hfits.mp h; omega))]
    · simp only [constructRecord, packU32_of_lt hk, packU32_of_not_lt hv, bind, Except.bind]
      rw [if_neg (fun h => hv (by have := hfits.mp h; omega))]
  · simp only [constructRecord, packU32_of_not_lt hk, bind, Except.bind]
    rw [if_neg (fun h => hk (by have := hfits.mp h; omega))]

/-! ## Reading -/

/-- Why the reader stops before the end of the file: it breaks out of its loop
at an incomplete or corrupt record, or a library call raises. -/
inductive Halt where
  | broken
  | raised (e : Error)
deriving DecidableEq, Repr

/-- A library call inside the reader's loop. -/
def raising {α : Type} : Except Error α → Except Halt α
  | .ok a => .ok a
  | .error e => .error (.raised e)

/-- The slicing of a payload's checked part into operation, key and value. Python
slices are lenient at the end of the string, `struct.unpack` is not. -/
def decodeData (data : Bytes) : Except Halt LogRecord :=
  match data with
  | [] => .error (.raised .indexError)
  | operationType :: _ => do
    let keyLen ← raising (unpackU32 ((data.drop 1).take 4))
    let keyEnd := 5 + keyLen
    let key := (data.drop 5).take keyLen
    let valueLen ← raising (unpackU32 ((data.drop keyEnd).take 4))
    let value := (data.drop (keyEnd + 4)).take valueLen
    return ⟨operationType, key, value⟩

/-- One round of the loop of `WAL.replay` at the front of `rest`: the record read
and how far the position moved. -/
def readRecord (rest : Bytes) : Except Halt (LogRecord × Nat) := do
  let recordLength ← raising (unpackU32 (rest.take 4))
  let payload := (rest.drop 4).take recordLength
  if payload.length < recordLength then throw .broken
  let data := payload.take (payload.length - 4)
  let storedChecksum ← raising (unpackU32 (payload.drop (payload.length - 4)))
  if (Zlib.crc32 data).toNat ≠ storedChecksum then throw .broken
  let record ← decodeData data
  return (record, 4 + recordLength)

/-- A yielded record and the byte offset it was found at. -/
abbrev WalEntry := LogRecord × Nat

/-- What a replay yields, and the exception that ended it, if any. -/
structure Replay where
  entries : List WalEntry
  raised : Option Error
deriving DecidableEq, Repr

/-- The loop of `WAL.replay`, at position `pos` with `rest` still unread. Every
round consumes at least the four bytes of a length, so as many rounds as there
are bytes suffice. -/
def replayLoop : Nat → Nat → Bytes → Replay
  | 0, _, _ => ⟨[], none⟩
  | _ + 1, _, [] => ⟨[], none⟩
  | rounds + 1, pos, b :: bs =>
    match readRecord (b :: bs) with
    | .error .broken => ⟨[], none⟩
    | .error (.raised e) => ⟨[], some e⟩
    | .ok (r, size) =>
      let later := replayLoop rounds (pos + size) ((b :: bs).drop size)
      ⟨(r, pos) :: later.entries, later.raised⟩

/-- `WAL.replay` on a file's content; a missing file replays as an empty one. -/
def replay (content : Option Bytes) : Replay :=
  match content with
  | none => ⟨[], none⟩
  | some bytes => replayLoop bytes.length 0 bytes

/-! ## Reading what was written -/

omit [Zlib] in
/-- Decoding the data of a record that fits gives the record back. -/
theorem decodeData_data {r : LogRecord} (h : r.Fits) : decodeData r.data = .ok r := by
  have hk : r.key.length < 2 ^ 32 := by unfold LogRecord.Fits at h; omega
  have hv : r.value.length < 2 ^ 32 := by unfold LogRecord.Fits at h; omega
  have hkey : ∀ rest : Bytes, (r.key ++ rest).drop r.key.length = rest := fun _ => List.drop_left
  have h5 : r.data.drop 5 = r.key ++ (beBytes 4 r.value.length ++ r.value) := by
    show (beBytes 4 r.key.length ++ r.key ++ beBytes 4 r.value.length ++ r.value).drop 4 = _
    rw [List.append_assoc, List.append_assoc, drop_beBytes_append]
  have hend : r.data.drop (5 + r.key.length) = beBytes 4 r.value.length ++ r.value := by
    rw [← List.drop_drop, h5, hkey]
  have hvalue : r.data.drop (5 + r.key.length + 4) = r.value := by
    rw [← List.drop_drop, hend, drop_beBytes_append]
  have h1 : (r.data.drop 1).take 4 = beBytes 4 r.key.length := by
    show (beBytes 4 r.key.length ++ r.key ++ beBytes 4 r.value.length ++ r.value).take 4 = _
    rw [List.append_assoc, List.append_assoc, take_beBytes_append]
  show (do
    let keyLen ← raising (unpackU32 ((r.data.drop 1).take 4))
    let valueLen ← raising (unpackU32 ((r.data.drop (5 + keyLen)).take 4))
    return (⟨r.operation, (r.data.drop 5).take keyLen,
      (r.data.drop (5 + keyLen + 4)).take valueLen⟩ : LogRecord)) = Except.ok r
  simp only [h1, unpackU32_beBytes hk, raising, bind, Except.bind, hend, take_beBytes_append,
    unpackU32_beBytes hv, h5, hvalue, List.take_left, List.take_length]
  rfl

/-- The reader undoes the writer, whatever follows the record. -/
theorem readRecord_encodeRecord {r : LogRecord} (h : r.Fits) (rest : Bytes) :
    readRecord (encodeRecord r ++ rest) = .ok (r, (encodeRecord r).length) := by
  have hlen := r.length_data
  have hfit : r.data.length + 4 < 2 ^ 32 := by unfold LogRecord.Fits at h; omega
  have hcrc : (Zlib.crc32 r.data).toNat < 2 ^ 32 := (Zlib.crc32 r.data).toNat_lt
  -- the two cuts of the payload fall on its parts: the data and the checksum
  let payload := r.data ++ beBytes 4 (Zlib.crc32 r.data).toNat
  have hpayload : payload.length = r.data.length + 4 := by simp [payload]
  have hcut : payload.length - 4 = r.data.length := by omega
  have hfront : encodeRecord r ++ rest = beBytes 4 (r.data.length + 4) ++ (payload ++ rest) :=
    List.append_assoc ..
  have htake : (payload ++ rest).take (r.data.length + 4) = payload := by
    rw [← hpayload, List.take_left]
  have hsize : (encodeRecord r).length = 4 + (r.data.length + 4) := by
    rw [length_encodeRecord, hlen]
    omega
  simp only [readRecord, hfront, take_beBytes_append, drop_beBytes_append, unpackU32_beBytes hfit,
    raising, bind, Except.bind, htake]
  rw [if_neg (by omega)]
  simp only [pure, Except.pure, hcut, payload, List.take_left, List.drop_left,
    unpackU32_beBytes hcrc, decodeData_data h, hsize]
  rw [if_neg (fun hne => hne rfl)]

/-- The bytes of a list of records. -/
def encodeLog (rs : List LogRecord) : Bytes := rs.flatMap encodeRecord

@[simp] theorem encodeLog_nil : encodeLog [] = [] := rfl

@[simp] theorem encodeLog_cons (r : LogRecord) (rs : List LogRecord) :
    encodeLog (r :: rs) = encodeRecord r ++ encodeLog rs := rfl

theorem encodeLog_append (rs rs' : List LogRecord) :
    encodeLog (rs ++ rs') = encodeLog rs ++ encodeLog rs' :=
  List.flatMap_append

/-- The records of a log with the offsets they start at, the first one at `pos`. -/
def entriesFrom : Nat → List LogRecord → List WalEntry
  | _, [] => []
  | pos, r :: rs => (r, pos) :: entriesFrom (pos + (encodeRecord r).length) rs

theorem map_fst_entriesFrom (pos : Nat) (rs : List LogRecord) :
    (entriesFrom pos rs).map Prod.fst = rs := by
  induction rs generalizing pos with
  | nil => rfl
  | cons r rs ih => rw [entriesFrom, List.map_cons, ih]

/-- A record is never empty, so every round of the scan moves on. -/
theorem encodeRecord_ne_nil (r : LogRecord) : encodeRecord r ≠ [] := by
  intro h
  have := length_encodeRecord r
  rw [h, List.length_nil] at this
  omega

/-- The loop reads the records of a log and goes on behind them. -/
theorem replayLoop_encodeLog {rs : List LogRecord} (h : ∀ r ∈ rs, r.Fits) (rounds pos : Nat)
    (rest : Bytes) :
    replayLoop (rs.length + rounds) pos (encodeLog rs ++ rest) =
      let later := replayLoop rounds (pos + (encodeLog rs).length) rest
      ⟨entriesFrom pos rs ++ later.entries, later.raised⟩ := by
  -- by induction on the records; a round reads the first one and moves to the next
  induction rs generalizing pos with
  | nil => simp [entriesFrom]
  | cons r rs ih =>
    have hr : r.Fits := h r List.mem_cons_self
    obtain ⟨b, bs, hbs⟩ := List.exists_cons_of_ne_nil (encodeRecord_ne_nil r)
    have hcons : encodeLog (r :: rs) ++ rest = b :: (bs ++ (encodeLog rs ++ rest)) := by
      rw [encodeLog_cons, hbs, List.append_assoc, List.cons_append]
    have hread : readRecord (b :: (bs ++ (encodeLog rs ++ rest))) =
        .ok (r, (encodeRecord r).length) := by
      rw [← List.cons_append, ← hbs]
      exact readRecord_encodeRecord hr _
    have hdrop : (b :: (bs ++ (encodeLog rs ++ rest))).drop (encodeRecord r).length =
        encodeLog rs ++ rest := by
      rw [← List.cons_append, ← hbs, List.drop_left]
    rw [List.length_cons, Nat.add_right_comm, hcons, replayLoop, hread]
    simp only [hdrop]
    rw [ih (fun r' hr' => h r' (List.mem_cons_of_mem _ hr'))]
    simp [entriesFrom, Nat.add_assoc]

/-- At the end of the file the scan stops, with no exception. -/
theorem replayLoop_nil (rounds pos : Nat) : replayLoop rounds pos [] = ⟨[], none⟩ := by
  cases rounds <;> rfl

/-- There are at most as many records as bytes. -/
theorem length_le_length_encodeLog (rs : List LogRecord) : rs.length ≤ (encodeLog rs).length := by
  induction rs with
  | nil => exact Nat.le_refl 0
  | cons r rs ih =>
    rw [encodeLog_cons, List.length_append, length_encodeRecord, List.length_cons]
    omega

/-- A file of records is replayed as those records at their offsets. -/
theorem replay_encodeLog {rs : List LogRecord} (h : ∀ r ∈ rs, r.Fits) :
    replay (some (encodeLog rs)) = ⟨entriesFrom 0 rs, none⟩ := by
  obtain ⟨rounds, hrounds⟩ := Nat.exists_eq_add_of_le (length_le_length_encodeLog rs)
  have := replayLoop_encodeLog h rounds 0 []
  rw [List.append_nil, ← hrounds, replayLoop_nil] at this
  simpa [replay] using this

/-! ## Bytes lost are records lost -/

omit [Zlib] in
theorem raising_ok {α : Type} {x : Except Error α} {a : α} (h : raising x = .ok a) : x = .ok a := by
  cases x with
  | error e => cases h
  | ok b => exact congrArg Except.ok (Except.ok.inj h)

omit [Zlib] in
/-- The fields cut out of a payload fit into it. -/
theorem length_decodeData {data : Bytes} {r : LogRecord} (h : decodeData data = .ok r) :
    r.data.length ≤ data.length := by
  rw [r.length_data]
  cases data with
  | nil => cases h
  | cons op rest =>
    simp only [decodeData, bind, Except.bind] at h
    split at h
    · cases h
    · next keyLen hkl =>
      split at h
      · cases h
      · next valueLen hvl =>
        have hval := length_of_unpackU32 (raising_ok hvl)
        obtain rfl := Except.ok.inj h
        simp only [List.length_take, List.length_drop] at hval ⊢
        omega

/-- A record that was read is no longer than what the scan skips for it. -/
theorem length_readRecord {rest : Bytes} {r : LogRecord} {size : Nat}
    (h : readRecord rest = .ok (r, size)) :
    (encodeRecord r).length ≤ size ∧ size ≤ rest.length := by
  simp only [readRecord, bind, Except.bind] at h
  split at h
  · cases h
  · next recordLength hlen =>
    have h4 := length_of_unpackU32 (raising_ok hlen)
    split at h
    · cases h
    · next hshort =>
      split at h
      · cases h
      · next stored hstored =>
        have hsum := length_of_unpackU32 (raising_ok hstored)
        split at h
        · cases h
        · split at h
          · cases h
          · next record hdata =>
            have hrec := length_decodeData hdata
            obtain ⟨rfl, rfl⟩ := Prod.mk.inj (Except.ok.inj h)
            have henc := length_encodeRecord record
            have hd := record.length_data
            simp only [List.length_take, List.length_drop] at h4 hsum hrec hshort
            omega

/-- What a scan read takes no more room than the file it was read from. -/
theorem length_encodeLog_replayLoop (rounds pos : Nat) (rest : Bytes) :
    (encodeLog ((replayLoop rounds pos rest).entries.map Prod.fst)).length ≤ rest.length := by
  -- by induction on the rounds: a record read is no longer than what was consumed for it
  induction rounds generalizing pos rest with
  | zero => exact Nat.zero_le _
  | succ rounds ih =>
    cases rest with
    | nil => exact Nat.zero_le _
    | cons b bs =>
      rw [replayLoop]
      split
      · exact Nat.zero_le _
      · exact Nat.zero_le _
      · next r size hread =>
        obtain ⟨hr, hsize⟩ := length_readRecord hread
        have hlater := ih (pos + size) ((b :: bs).drop size)
        rw [List.length_drop] at hlater
        rw [List.map_cons, encodeLog_cons, List.length_append]
        show (encodeRecord r).length + _ ≤ _
        omega

/-- What a replay yields, written out again, is no longer than the file. -/
theorem length_encodeLog_replay (bytes : Bytes) :
    (encodeLog ((replay (some bytes)).entries.map Prod.fst)).length ≤ bytes.length :=
  length_encodeLog_replayLoop bytes.length 0 bytes

end Logvine
