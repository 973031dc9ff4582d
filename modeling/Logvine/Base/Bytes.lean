import Mathlib

/-!
# Byte strings

Byte strings are lists of octets, compared lexicographically. This file carries
the two text formats a storage program puts numbers and keys into:

- fixed-width **big-endian** integers (`beBytes`, `beNat`): a number that fits
  the width is read back (`beNat_beBytes`), a reader that takes exactly the
  width off the front leaves what follows alone (`take_beBytes_append`,
  `drop_beBytes_append`);
- lower-case **hexadecimal** text (`hexText`, `ofHexText`), which is undone by
  its reader (`ofHexText_hexText`).
-/

namespace Logvine

/-- A byte string. -/
abbrev Bytes := List UInt8

/-- Octets are ordered by their numeric value, which makes byte strings ordered
lexicographically through Mathlib's order on lists. -/
instance instLinearOrderUInt8 : LinearOrder UInt8 where
  le_refl := UInt8.le_refl
  le_trans _ _ _ := UInt8.le_trans
  le_antisymm _ _ := UInt8.le_antisymm
  le_total := UInt8.le_total
  lt_iff_le_not_ge a b := by
    simp only [UInt8.lt_iff_toNat_lt, UInt8.le_iff_toNat_le]
    omega
  toDecidableLE := inferInstance
  toDecidableEq := inferInstance
  toDecidableLT := inferInstance

/-! ## Big-endian integers -/

/-- The low `w` bytes of `n`, most significant first. -/
def beBytes : Nat → Nat → Bytes
  | 0, _ => []
  | w + 1, n => beBytes w (n / 256) ++ [UInt8.ofNat (n % 256)]

/-- The number a big-endian byte string spells. -/
def beNat (bs : Bytes) : Nat :=
  bs.foldl (fun acc b => acc * 256 + b.toNat) 0

/-- A number of `w` bytes is written in `w` bytes. -/
@[simp] theorem length_beBytes (w n : Nat) : (beBytes w n).length = w := by
  induction w generalizing n with
  | zero => rfl
  | succ w ih => simp [beBytes, ih]

/-- The last byte is the least significant one. -/
theorem beNat_append_singleton (bs : Bytes) (b : UInt8) :
    beNat (bs ++ [b]) = beNat bs * 256 + b.toNat := by
  simp [beNat, List.foldl_append]

/-- A number that fits `w` bytes is read back from them. -/
theorem beNat_beBytes {w n : Nat} (h : n < 256 ^ w) : beNat (beBytes w n) = n := by
  induction w generalizing n with
  | zero =>
    have : n = 0 := by simpa using h
    subst this
    rfl
  | succ w ih =>
    have hdiv : n / 256 < 256 ^ w := by
      rw [Nat.div_lt_iff_lt_mul (by decide), ← Nat.pow_succ]
      exact h
    have hbyte : (UInt8.ofNat (n % 256)).toNat = n % 256 := by simp
    rw [beBytes, beNat_append_singleton, ih hdiv, hbyte]
    omega

/-- A field of fixed width is cut off the front of what follows it. -/
@[simp] theorem take_beBytes_append (w n : Nat) (rest : Bytes) :
    (beBytes w n ++ rest).take w = beBytes w n :=
  List.take_left' (length_beBytes w n)

@[simp] theorem drop_beBytes_append (w n : Nat) (rest : Bytes) :
    (beBytes w n ++ rest).drop w = rest :=
  List.drop_left' (length_beBytes w n)

/-! ## Hexadecimal text -/

/-- The lower-case hexadecimal digit of a number below sixteen. -/
def hexDigit (n : Nat) : Char :=
  if n < 10 then Char.ofNat (48 + n) else Char.ofNat (87 + n)

/-- The value of a hexadecimal digit of either case. -/
def hexValue (c : Char) : Option Nat :=
  if '0' ≤ c ∧ c ≤ '9' then some (c.toNat - 48)
  else if 'a' ≤ c ∧ c ≤ 'f' then some (c.toNat - 87)
  else if 'A' ≤ c ∧ c ≤ 'F' then some (c.toNat - 55)
  else none

/-- Two digits per byte, without separators. -/
def hexDigits : Bytes → List Char
  | [] => []
  | b :: bs => hexDigit (b.toNat / 16) :: hexDigit (b.toNat % 16) :: hexDigits bs

/-- Read pairs of digits; blanks may stand between pairs, nothing else may. -/
def ofHexDigits : List Char → Option Bytes
  | [] => some []
  | [c] => if c.isWhitespace then some [] else none
  | c :: d :: cs =>
    -- a blank is skipped in front of a pair only
    if c.isWhitespace then ofHexDigits (d :: cs)
    else do
      let hi ← hexValue c
      let lo ← hexValue d
      let rest ← ofHexDigits cs
      pure (UInt8.ofNat (16 * hi + lo) :: rest)

/-- The hexadecimal text of a byte string. -/
def hexText (bs : Bytes) : String := String.ofList (hexDigits bs)

/-- The byte string a hexadecimal text spells, if it spells one. -/
def ofHexText (s : String) : Option Bytes := ofHexDigits s.toList

theorem hexValue_hexDigit : ∀ n < 16, hexValue (hexDigit n) = some n := by decide

theorem isWhitespace_hexDigit : ∀ n < 16, (hexDigit n).isWhitespace = false := by decide

/-- `bytes.fromhex` reads what `hex` wrote. -/
theorem ofHexDigits_hexDigits (bs : Bytes) : ofHexDigits (hexDigits bs) = some bs := by
  induction bs with
  | nil => rfl
  | cons b bs ih =>
    have hb : b.toNat < 256 := b.toNat_lt
    have hhi : b.toNat / 16 < 16 := by omega
    have hlo : b.toNat % 16 < 16 := Nat.mod_lt _ (by decide)
    have hbyte : UInt8.ofNat (16 * (b.toNat / 16) + b.toNat % 16) = b := by
      rw [show 16 * (b.toNat / 16) + b.toNat % 16 = b.toNat from Nat.div_add_mod _ _]
      exact UInt8.ofNat_toNat
    rw [hexDigits, ofHexDigits, isWhitespace_hexDigit _ hhi, hexValue_hexDigit _ hhi,
      hexValue_hexDigit _ hlo, ih]
    simp only [Bool.false_eq_true, if_false, Option.bind_eq_bind, Option.bind_some,
      Option.pure_def, hbyte]

/-- Reading the hexadecimal text of a byte string gives it back. -/
@[simp] theorem ofHexText_hexText (bs : Bytes) : ofHexText (hexText bs) = some bs := by
  simp [ofHexText, hexText, ofHexDigits_hexDigits]

end Logvine
