import Logvine.Base.Bytes

/-!
# Errors, reserved bytes and fixed-width fields

What the storage modules share: the exceptions that reach a caller, the value
that marks a deletion, and the `struct` formats `">I"` and `">Q"`.

The mark is an ordinary value that the source writes out wherever it needs it
(`memtable.py`, 131; `engine.py`, 186, 219 and 229). So nothing keeps a caller from storing
it: a put of these thirteen bytes is a deletion.
-/

namespace Logvine

/-- The exceptions raised by the storage modules and by the library calls they
make. -/
inductive Error where
  | structError
  | indexError
  | osError
  | valueError (message : String)
  | keyError (key : Bytes)
  | fileNotFound (path : String)
  | batchTooLarge (batchBytes maxBytes : Int)
deriving DecidableEq, Repr

/-- `b"__TOMBSTONE__"`, stored as the value of a deleted key. -/
def tombstone : Bytes := [95, 95, 84, 79, 77, 66, 83, 84, 79, 78, 69, 95, 95]

/-- `struct.pack(">I", n)`. -/
def packU32 (n : Nat) : Except Error Bytes :=
  if n < 2 ^ 32 then .ok (beBytes 4 n) else .error .structError

/-- `struct.unpack(">I", bs)[0]`: the field must be complete. -/
def unpackU32 (bs : Bytes) : Except Error Nat :=
  if bs.length = 4 then .ok (beNat bs) else .error .structError

/-- `struct.pack(">Q", n)`. -/
def packU64 (n : Nat) : Except Error Bytes :=
  if n < 2 ^ 64 then .ok (beBytes 8 n) else .error .structError

/-- `struct.unpack(">Q", bs)[0]`. -/
def unpackU64 (bs : Bytes) : Except Error Nat :=
  if bs.length = 8 then .ok (beNat bs) else .error .structError

/-- `struct.pack(">I", n)` writes any number of 32 bits. -/
theorem packU32_of_lt {n : Nat} (h : n < 2 ^ 32) : packU32 n = .ok (beBytes 4 n) := if_pos h

/-- And raises for any other. -/
theorem packU32_of_not_lt {n : Nat} (h : ¬n < 2 ^ 32) : packU32 n = .error .structError := if_neg h

/-- `struct.pack(">Q", n)` likewise, for 64 bits. -/
theorem packU64_of_lt {n : Nat} (h : n < 2 ^ 64) : packU64 n = .ok (beBytes 8 n) := if_pos h

/-- What was packed is unpacked again. -/
theorem unpackU32_beBytes {n : Nat} (h : n < 2 ^ 32) : unpackU32 (beBytes 4 n) = .ok n := by
  rw [unpackU32, if_pos (length_beBytes 4 n), beNat_beBytes h]

theorem unpackU64_beBytes {n : Nat} (h : n < 2 ^ 64) : unpackU64 (beBytes 8 n) = .ok n := by
  rw [unpackU64, if_pos (length_beBytes 8 n), beNat_beBytes h]

/-- `struct.unpack` accepts exactly four bytes. -/
theorem length_of_unpackU32 {bs : Bytes} {n : Nat} (h : unpackU32 bs = .ok n) : bs.length = 4 := by
  unfold unpackU32 at h
  split at h
  · assumption
  · cases h

end Logvine
