import Logvine.Base.Bytes

/-!
# Text and its UTF-8 form

A text is a list of code points, surrogates included; the UTF-8 form of a text without
surrogates is a byte string.

- `encodeUtf8`: the bytes of a text, if it has no surrogate;
- `decodeUtf8`, `decodeUtf8Lossy`: the text of a byte string; the decoder is a machine over
  the bytes that also says where a malformed sequence ends, and the lossy form puts the
  replacement character there;
- `scalar_of_decodeUtf8`: decoded text has no surrogate;
- `Ascii`: texts below 128, whose bytes are their code points;
- `decodeUtf8_encodeUtf8`: the bytes of a text are decoded to it.
-/

namespace Logvine

/-- A Unicode code point, which may be a surrogate. -/
abbrev CodePoint := Fin 0x110000

instance CodePoint.neZero : NeZero 0x110000 := ⟨by decide⟩

/-- A text. -/
abbrev Text := List CodePoint

/-- The code point of a character. -/
def chr (c : Char) : CodePoint :=
  ⟨c.toNat, by
    rcases c.valid with h | h
    · exact lt_trans h (by decide)
    · exact h.2⟩

/-- The text of a string literal. -/
def text (s : String) : Text := s.toList.map chr

/-- Not a surrogate. -/
def Scalar (c : CodePoint) : Prop := c.val < 0xD800 ∨ 0xDFFF < c.val

instance (c : CodePoint) : Decidable (Scalar c) := inferInstanceAs (Decidable (c.val < 0xD800 ∨ 0xDFFF < c.val))

/-! ## Encoding -/

/-- The bytes of one code point. -/
def encodePoint (c : CodePoint) : Option Bytes :=
  let n := c.val
  if n < 0x80 then some [.ofNat n]
  else if n < 0x800 then some [.ofNat (0xC0 + n / 64), .ofNat (0x80 + n % 64)]
  else if ¬Scalar c then none
  else if n < 0x10000 then
    some [.ofNat (0xE0 + n / 4096), .ofNat (0x80 + n / 64 % 64), .ofNat (0x80 + n % 64)]
  else
    some [.ofNat (0xF0 + n / 262144), .ofNat (0x80 + n / 4096 % 64), .ofNat (0x80 + n / 64 % 64),
      .ofNat (0x80 + n % 64)]

/-- The bytes of a text; there are none for a surrogate. -/
def encodeUtf8 : Text → Option Bytes
  | [] => some []
  | c :: t =>
    match encodePoint c, encodeUtf8 t with
    | some bs, some bs' => some (bs ++ bs')
    | _, _ => none

theorem encodePoint_ne_some_nil (c : CodePoint) : encodePoint c ≠ some [] := by
  unfold encodePoint
  dsimp only
  repeat' split
  all_goals simp

/-- Text that is not empty has bytes. -/
theorem encodeUtf8_ne_nil {s : Text} (h : s ≠ []) {bs : Bytes} (hs : encodeUtf8 s = some bs) : bs ≠ [] := by
  cases s with
  | nil => exact absurd rfl h
  | cons c t =>
    rw [encodeUtf8] at hs
    split at hs
    · next bs₁ bs₂ hpoint _ =>
      obtain rfl := Option.some.inj hs
      have hne : bs₁ ≠ [] := fun hnil => encodePoint_ne_some_nil c (hnil ▸ hpoint)
      exact List.append_ne_nil_of_left_ne_nil hne bs₂
    · cases hs

theorem encodeUtf8_eq_nil_iff {s : Text} {bs : Bytes} (h : encodeUtf8 s = some bs) : bs = [] ↔ s = [] := by
  constructor
  · intro hbs
    by_contra hs
    exact encodeUtf8_ne_nil hs h hbs
  · rintro rfl
    exact (Option.some.inj h).symm

/-- Encoding works character by character. -/
theorem encodeUtf8_append {s t : Text} {bs bs' : Bytes} (hs : encodeUtf8 s = some bs) (ht : encodeUtf8 t = some bs') :
    encodeUtf8 (s ++ t) = some (bs ++ bs') := by
  induction s generalizing bs with
  | nil =>
    obtain rfl := Option.some.inj hs
    exact ht
  | cons c s ih =>
    rw [encodeUtf8] at hs
    split at hs
    · next bs₁ bs₂ hpoint hrest =>
      obtain rfl := Option.some.inj hs
      rw [List.cons_append, encodeUtf8, hpoint, ih hrest, List.append_assoc]
    · cases hs

theorem scalar_of_encodePoint {c : CodePoint} {bs : Bytes} (h : encodePoint c = some bs) : Scalar c := by
  unfold encodePoint at h
  dsimp only at h
  split at h
  · exact .inl (by omega)
  split at h
  · exact .inl (by omega)
  split at h
  · cases h
  · next hscalar => exact not_not.mp hscalar

/-- What can be encoded has no surrogates. -/
theorem scalar_of_encodeUtf8 {s : Text} {bs : Bytes} (h : encodeUtf8 s = some bs) : ∀ c ∈ s, Scalar c := by
  induction s generalizing bs with
  | nil => exact List.forall_mem_nil _
  | cons c s ih =>
    rw [encodeUtf8] at h
    split at h
    · next bs₁ bs₂ hpoint hrest => exact List.forall_mem_cons.mpr ⟨scalar_of_encodePoint hpoint, ih hrest⟩
    · cases h

/-! ## Decoding -/

/-- Where the decoder is: at the start of a code point, or inside one of which `left + 1`
bytes are owed, the next one within bounds. -/
inductive DecodeState where
  | start
  | inside (left acc low high : Nat)
deriving DecidableEq, Repr

/-- The first byte of a code point: what it gives (`none`: malformed), and what follows. -/
def decodeFirst (b : Nat) : List (Option CodePoint) × DecodeState :=
  if b < 0x80 then ([some (.ofNat _ b)], .start)
  else if b < 0xC2 then ([none], .start)
  else if b < 0xE0 then ([], .inside 0 (b % 32) 0x80 0xBF)
  else if b = 0xE0 then ([], .inside 1 0 0xA0 0xBF)
  else if b = 0xED then ([], .inside 1 0x0D 0x80 0x9F)
  else if b < 0xF0 then ([], .inside 1 (b % 16) 0x80 0xBF)
  else if b = 0xF0 then ([], .inside 2 0 0x90 0xBF)
  else if b < 0xF4 then ([], .inside 2 (b % 8) 0x80 0xBF)
  else if b = 0xF4 then ([], .inside 2 4 0x80 0x8F)
  else ([none], .start)

/-- A byte that continues the code point, of which `left` are owed now. -/
def decodeNext (acc : Nat) : Nat → List (Option CodePoint) × DecodeState
  | 0 => ([some (.ofNat _ acc)], .start)
  | left + 1 => ([], .inside left acc 0x80 0xBF)

/-- One byte. A byte that cannot continue a code point ends it as malformed and begins the
next one. -/
def decodeStep (b : Nat) : DecodeState → List (Option CodePoint) × DecodeState
  | .start => decodeFirst b
  | .inside left acc low high =>
    if low ≤ b ∧ b ≤ high then decodeNext (acc * 64 + b % 64) left
    else (none :: (decodeFirst b).1, (decodeFirst b).2)

/-- The code points of a byte string, `none` for each malformed sequence. -/
def decodePoints : DecodeState → Bytes → List (Option CodePoint)
  | .start, [] => []
  | .inside _ _ _ _, [] => [none]
  | s, b :: bs => (decodeStep b.toNat s).1 ++ decodePoints (decodeStep b.toNat s).2 bs

/-- The text of code points none of which is malformed. -/
def allPoints : List (Option CodePoint) → Option Text
  | [] => some []
  | none :: _ => none
  | some c :: ps => (allPoints ps).map fun t => c :: t

/-- `bs.decode()`, if the bytes are well formed. -/
def decodeUtf8 (bs : Bytes) : Option Text := allPoints (decodePoints .start bs)

/-- `bs.decode("utf-8", errors="replace")`. -/
def decodeUtf8Lossy (bs : Bytes) : Text := (decodePoints .start bs).map fun p => p.getD 0xFFFD

/-! ## Decoded text has no surrogate -/

/-- Whatever completes the code point, it is not a surrogate. -/
def DecodeState.Sound : DecodeState → Prop
  | .start => True
  | .inside left acc low high =>
    0x80 ≤ low ∧ high ≤ 0xBF ∧ left ≤ 2 ∧
      ((acc * 64 + high % 64 + 1) * 64 ^ left ≤ 0xD800 ∨
        0xE000 ≤ (acc * 64 + low % 64) * 64 ^ left ∧ (acc * 64 + high % 64 + 1) * 64 ^ left ≤ 0x110000)

/-- All that has been decoded is scalar. -/
def ScalarPoints (ps : List (Option CodePoint)) : Prop := ∀ c, some c ∈ ps → Scalar c

/-- Outside a sequence, a byte decodes to scalar values only. -/
theorem sound_decodeFirst (b : Nat) : ScalarPoints (decodeFirst b).1 ∧ (decodeFirst b).2.Sound := by
  rw [decodeFirst]
  split
  · next h =>
    refine ⟨?_, trivial⟩
    intro c hc
    obtain rfl : c = .ofNat _ b := by simpa using hc
    left
    show b % 0x110000 < 0xD800
    omega
  have hnone : ScalarPoints [none] := by
    intro c hc
    simp at hc
  have hnil : ScalarPoints [] := fun c hc => absurd hc List.not_mem_nil
  split
  · exact ⟨hnone, trivial⟩
  split
  · refine ⟨hnil, ?_⟩
    simp only [DecodeState.Sound]
    omega
  split
  · exact ⟨hnil, by simp only [DecodeState.Sound]; omega⟩
  split
  · exact ⟨hnil, by simp only [DecodeState.Sound]; omega⟩
  split
  · refine ⟨hnil, ?_⟩
    simp only [DecodeState.Sound]
    omega
  split
  · exact ⟨hnil, by simp only [DecodeState.Sound]; omega⟩
  split
  · refine ⟨hnil, ?_⟩
    simp only [DecodeState.Sound]
    omega
  split
  · exact ⟨hnil, by simp only [DecodeState.Sound]; omega⟩
  · exact ⟨hnone, trivial⟩

/-- Within a sequence too: the bounds on the second byte keep surrogates and values past U+10FFFF
out. -/
theorem sound_decodeStep (b : Nat) {s : DecodeState} (h : s.Sound) :
    ScalarPoints (decodeStep b s).1 ∧ (decodeStep b s).2.Sound := by
  cases s with
  | start => exact sound_decodeFirst b
  | inside left acc low high =>
    rw [decodeStep]
    split
    · next hb =>
      rw [DecodeState.Sound] at h
      obtain ⟨hlow, hhigh, hleft, hrange⟩ := h
      cases left with
      | zero =>
        rw [decodeNext]
        refine ⟨?_, trivial⟩
        intro c hc
        obtain rfl : c = .ofNat _ (acc * 64 + b % 64) := by simpa using hc
        show (acc * 64 + b % 64) % 0x110000 < 0xD800 ∨ 0xDFFF < (acc * 64 + b % 64) % 0x110000
        omega
      | succ left =>
        rw [decodeNext]
        refine ⟨fun c hc => absurd hc List.not_mem_nil, ?_⟩
        rw [DecodeState.Sound]
        -- the values still possible are among those possible before
        obtain rfl | rfl : left = 0 ∨ left = 1 := by omega
        · omega
        · omega
    · obtain ⟨hpoints, hsound⟩ := sound_decodeFirst b
      refine ⟨?_, hsound⟩
      intro c hc
      exact hpoints c (by simpa using hc)

/-- So decoding never makes a surrogate. -/
theorem scalar_decodePoints {s : DecodeState} (h : s.Sound) (bs : Bytes) :
    ScalarPoints (decodePoints s bs) := by
  induction bs generalizing s with
  | nil =>
    intro c hc
    cases s with
    | start => exact absurd hc List.not_mem_nil
    | inside left acc low high => simp [decodePoints] at hc
  | cons b bs ih =>
    obtain ⟨hpoints, hsound⟩ := sound_decodeStep b.toNat h
    intro c hc
    have hc' : some c ∈ (decodeStep b.toNat s).1 ++ decodePoints (decodeStep b.toNat s).2 bs := by
      cases s <;> exact hc
    rcases List.mem_append.mp hc' with hc | hc
    · exact hpoints c hc
    · exact ih hsound c hc

theorem allPoints_map_some (t : Text) : allPoints (t.map some) = some t := by
  induction t with
  | nil => rfl
  | cons c t ih =>
    rw [List.map_cons, allPoints, ih]
    rfl

/-- Text is read in full exactly when no byte was replaced. -/
theorem allPoints_eq_some {ps : List (Option CodePoint)} {t : Text} (h : allPoints ps = some t) :
    ps = t.map some := by
  induction ps generalizing t with
  | nil =>
    cases h
    rfl
  | cons p ps ih =>
    cases p with
    | none => cases h
    | some c =>
      obtain ⟨t', ht', rfl⟩ := Option.map_eq_some_iff.mp h
      rw [ih ht']
      rfl

/-- **Decoded text** has no surrogate. -/
theorem scalar_of_decodeUtf8 {bs : Bytes} {t : Text} (h : decodeUtf8 bs = some t) : ∀ c ∈ t, Scalar c := by
  intro c hc
  have hpoints := allPoints_eq_some h
  refine scalar_decodePoints (s := .start) trivial bs c ?_
  rw [hpoints]
  exact List.mem_map_of_mem hc

/-! ## Texts below 128 -/

/-- All code points are below 128. -/
def Ascii (t : Text) : Prop := ∀ c ∈ t, c.val < 128

instance (t : Text) : Decidable (Ascii t) := List.decidableBAll (fun c : CodePoint => c.val < 128) t

/-- The bytes of an ASCII text. -/
def asciiBytes (t : Text) : Bytes := t.map fun c => .ofNat c.val

theorem decodeUtf8_ascii {t : Text} (h : Ascii t) : decodeUtf8 (asciiBytes t) = some t := by
  have hpoints : decodePoints .start (asciiBytes t) = t.map some := by
    induction t with
    | nil => rfl
    | cons c t ih =>
      have hc : c.val < 128 := h c List.mem_cons_self
      have hbyte : (UInt8.ofNat c.val).toNat = c.val := by
        rw [UInt8.toNat_ofNat']
        omega
      have hstep : decodeStep (UInt8.ofNat c.val).toNat .start = ([some c], .start) := by
        rw [decodeStep, decodeFirst, hbyte, if_pos hc]
        congr 3
        exact Fin.ext (Nat.mod_eq_of_lt c.isLt)
      show (decodeStep (UInt8.ofNat c.val).toNat .start).1 ++
        decodePoints (decodeStep (UInt8.ofNat c.val).toNat .start).2 (asciiBytes t) = _
      rw [hstep, ih fun d hd => h d (List.mem_cons_of_mem _ hd)]
      rfl
  rw [decodeUtf8, hpoints, allPoints_map_some]

/-! ## Decoding undoes encoding -/

theorem toNat_byte {n : Nat} (h : n < 256) : (UInt8.ofNat n).toNat = n := by
  rw [UInt8.toNat_ofNat']
  omega

/-- Decoding goes byte by byte, with the state between two bytes. -/
theorem decodePoints_cons (s : DecodeState) (b : UInt8) (bs : Bytes) :
    decodePoints s (b :: bs) = (decodeStep b.toNat s).1 ++ decodePoints (decodeStep b.toNat s).2 bs := by
  cases s <;> rfl

/-- A byte within the bounds. -/
theorem decodePoints_inside {left acc low high n : Nat} (hlow : low ≤ 0x80 + n % 64) (hhigh : 0x80 + n % 64 ≤ high)
    (bs : Bytes) :
    decodePoints (.inside left acc low high) (.ofNat (0x80 + n % 64) :: bs) =
      (decodeNext (acc * 64 + n % 64) left).1 ++ decodePoints (decodeNext (acc * 64 + n % 64) left).2 bs := by
  have hbyte : (UInt8.ofNat (0x80 + n % 64)).toNat = 0x80 + n % 64 := toNat_byte (by omega)
  have hrest : (0x80 + n % 64) % 64 = n % 64 := by omega
  rw [decodePoints_cons, hbyte, decodeStep, if_pos ⟨hlow, hhigh⟩, hrest]

/-- The first of three bytes bounds the second: no shorter form, and no surrogate. -/
theorem decodeFirst_three {n : Nat} (hlow : 0x800 ≤ n) (hhigh : n < 0x10000) (hs : n < 0xD800 ∨ 0xDFFF < n) :
    ∃ low high, decodeFirst (0xE0 + n / 4096) = ([], .inside 1 (n / 4096) low high) ∧
      low ≤ 0x80 + n / 64 % 64 ∧ 0x80 + n / 64 % 64 ≤ high := by
  rw [decodeFirst, if_neg (by omega), if_neg (by omega), if_neg (by omega)]
  split
  · next heq =>
    have hzero : n / 4096 = 0 := by omega
    exact ⟨_, _, by rw [hzero], by omega, by omega⟩
  split
  · next heq =>
    have hlead : n / 4096 = 0x0D := by omega
    exact ⟨_, _, by rw [hlead], by omega, by omega⟩
  · have hlead : (0xE0 + n / 4096) % 16 = n / 4096 := by omega
    rw [if_pos (by omega), hlead]
    exact ⟨_, _, rfl, by omega, by omega⟩

/-- The first of four bytes: no shorter form, and no code point past the last. -/
theorem decodeFirst_four {n : Nat} (hlow : 0x10000 ≤ n) (hhigh : n < 0x110000) :
    ∃ low high, decodeFirst (0xF0 + n / 262144) = ([], .inside 2 (n / 262144) low high) ∧
      low ≤ 0x80 + n / 4096 % 64 ∧ 0x80 + n / 4096 % 64 ≤ high := by
  rw [decodeFirst, if_neg (by omega), if_neg (by omega), if_neg (by omega), if_neg (by omega), if_neg (by omega),
    if_neg (by omega)]
  split
  · next heq =>
    have hzero : n / 262144 = 0 := by omega
    exact ⟨_, _, by rw [hzero], by omega, by omega⟩
  split
  · have hlead : (0xF0 + n / 262144) % 8 = n / 262144 := by omega
    rw [hlead]
    exact ⟨_, _, rfl, by omega, by omega⟩
  · next hne =>
    have hlast : n / 262144 = 4 := by omega
    rw [if_pos (by omega), hlast]
    exact ⟨_, _, rfl, by omega, by omega⟩

/-- The bytes of a code point are decoded to it, whatever follows. -/
theorem decodePoints_encodePoint {c : CodePoint} {bs : Bytes} (h : encodePoint c = some bs) (rest : Bytes) :
    decodePoints .start (bs ++ rest) = some c :: decodePoints .start rest := by
  have hscalar := scalar_of_encodePoint h
  have hlt : c.val < 0x110000 := c.isLt
  have hpoint : ∀ m : Nat, m = c.val → (Fin.ofNat 0x110000 m : CodePoint) = c := by
    rintro m rfl
    exact Fin.ext (Nat.mod_eq_of_lt hlt)
  unfold encodePoint at h
  dsimp only at h
  split at h
  · next hone =>
    obtain rfl := Option.some.inj h
    rw [List.singleton_append, decodePoints_cons, toNat_byte (by omega), decodeStep, decodeFirst, if_pos hone,
      hpoint _ rfl]
    rfl
  split at h
  · next hone htwo =>
    obtain rfl := Option.some.inj h
    have hlead : (0xC0 + c.val / 64) % 32 = c.val / 64 := by omega
    rw [List.cons_append, decodePoints_cons, toNat_byte (by omega), decodeStep, decodeFirst, if_neg (by omega),
      if_neg (by omega), if_pos (by omega), hlead, List.nil_append, List.singleton_append,
      decodePoints_inside (by omega) (by omega), decodeNext, hpoint _ (by omega)]
    rfl
  split at h
  · next hone htwo hthree =>
    obtain rfl := Option.some.inj h
    obtain ⟨low, high, hfirst, hlow, hhigh⟩ := decodeFirst_three (not_lt.mp htwo) hthree hscalar
    rw [List.cons_append, decodePoints_cons, toNat_byte (by omega), decodeStep, hfirst, List.nil_append,
      List.cons_append, decodePoints_inside hlow hhigh, decodeNext, List.nil_append, List.singleton_append,
      decodePoints_inside (by omega) (by omega), decodeNext, hpoint _ (by omega)]
    rfl
  · next hone htwo hthree =>
    obtain rfl := Option.some.inj h
    obtain ⟨low, high, hfirst, hlow, hhigh⟩ := decodeFirst_four (not_lt.mp hthree) hlt
    rw [List.cons_append, decodePoints_cons, toNat_byte (by omega), decodeStep, hfirst, List.nil_append,
      List.cons_append, decodePoints_inside hlow hhigh, decodeNext, List.nil_append, List.cons_append,
      decodePoints_inside (by omega) (by omega), decodeNext, List.nil_append, List.singleton_append,
      decodePoints_inside (by omega) (by omega), decodeNext, hpoint _ (by omega)]
    rfl

/-- Decoding what was encoded gives the text back. -/
theorem decodePoints_encodeUtf8 {t : Text} {bs : Bytes} (h : encodeUtf8 t = some bs) :
    decodePoints .start bs = t.map some := by
  induction t generalizing bs with
  | nil =>
    obtain rfl := Option.some.inj h
    rfl
  | cons c t ih =>
    rw [encodeUtf8] at h
    split at h
    · next bs₁ bs₂ hpoint hrest =>
      obtain rfl := Option.some.inj h
      rw [decodePoints_encodePoint hpoint, ih hrest, List.map_cons]
    · cases h

/-- **Decoding undoes encoding.** -/
theorem decodeUtf8_encodeUtf8 {t : Text} {bs : Bytes} (h : encodeUtf8 t = some bs) : decodeUtf8 bs = some t := by
  rw [decodeUtf8, decodePoints_encodeUtf8 h, allPoints_map_some]

/-- Bytes that can be decoded have nothing to be replaced. -/
theorem decodeUtf8Lossy_of_decodeUtf8 {bs : Bytes} {t : Text} (h : decodeUtf8 bs = some t) : decodeUtf8Lossy bs = t := by
  rw [decodeUtf8Lossy, allPoints_eq_some h, List.map_map]
  exact List.map_id t

end Logvine
