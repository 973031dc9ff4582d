import Logvine.Base.Text

/-!
# JSON documents

Printing and reading of JSON as `dumps` and `loads` do it: the printer escapes everything
outside printable ASCII and puts a blank after each comma and colon; the reader takes the
whole grammar, with blanks anywhere, every escape, and the constants `NaN` and `Infinity`.

- `Json`: a document; an object is the list of its entries in the order of the text, of
  which a repeated key counts as its last;
- `Json.dumps`, `loads`: the printer and the reader;
- `loads_dumps`: what has been printed is read back, but for two surrogates next to each
  other, which the reader joins (`readBack`); scalar text is not changed;
- `printable_dumps`: printed text is printable ASCII, so it has no line break;
- `stringSize`: how long a string is printed.
-/

namespace Logvine

/-- A JSON document. A float is `mantissa * 10 ^ exponent`. -/
inductive Json where
  | null
  | bool (b : Bool)
  | int (n : Int)
  | float (mantissa exponent : Int)
  | nan
  | infinity (negative : Bool)
  | string (s : Text)
  | array (items : List Json)
  | object (entries : List (Text × Json))

namespace Json

/-! ## Printing -/

/-- A hexadecimal digit, lower case. -/
def hexDigit (d : Nat) : CodePoint := if d < 10 then .ofNat _ (48 + d) else .ofNat _ (87 + d)

/-- `\uXXXX`. -/
def escapeUnit (n : Nat) : Text :=
  text "\\u" ++ [hexDigit (n / 4096 % 16), hexDigit (n / 256 % 16), hexDigit (n / 16 % 16), hexDigit (n % 16)]

/-- The escapes of one letter: the letter, and what it stands for. -/
def shortEscapes : List (CodePoint × CodePoint) :=
  [(chr '"', chr '"'), (chr '\\', chr '\\'), (chr 'n', chr '\n'), (chr 'r', chr '\r'), (chr 't', chr '\t'),
    (chr 'f', .ofNat _ 12), (chr 'b', .ofNat _ 8)]

/-- A code point as a string has it. -/
def escapePoint (c : CodePoint) : Text :=
  match shortEscapes.find? fun e => e.2 = c with
  | some e => [chr '\\', e.1]
  | none =>
    if 0x20 ≤ c.val ∧ c.val ≤ 0x7E then [c]
    else if c.val < 0x10000 then escapeUnit c.val
    else escapeUnit (0xD800 + (c.val - 0x10000) / 1024) ++ escapeUnit (0xDC00 + (c.val - 0x10000) % 1024)

/-- A string with its quotes. -/
def dumpsString (s : Text) : Text := chr '"' :: (s.flatMap escapePoint ++ [chr '"'])

/-- The decimal digits of a number. -/
def decimalDigits (n : Nat) : List Nat := if n = 0 then [0] else (Nat.digits 10 n).reverse

/-- `str(n)`. -/
def decimal (n : Nat) : Text := (decimalDigits n).map fun d => .ofNat _ (48 + d)

/-- `str(n)` of an integer. -/
def signedDecimal : Int → Text
  | .ofNat n => decimal n
  | .negSucc n => chr '-' :: decimal (n + 1)

/-- What stands before an element. -/
def separator (isFirst : Bool) : Text := if isFirst then [] else text ", "

mutual

/-- `json.dumps`. A float is printed as its mantissa and exponent, which the reader takes
for the same number. -/
def dumps : Json → Text
  | .null => text "null"
  | .bool true => text "true"
  | .bool false => text "false"
  | .int n => signedDecimal n
  | .float mantissa exponent => signedDecimal mantissa ++ (chr 'e' :: signedDecimal exponent)
  | .nan => text "NaN"
  | .infinity false => text "Infinity"
  | .infinity true => text "-Infinity"
  | .string s => dumpsString s
  | .array items => chr '[' :: dumpsItems true items
  | .object entries => chr '{' :: dumpsEntries true entries

/-- The elements of a list, to the end of the list. -/
def dumpsItems (isFirst : Bool) : List Json → Text
  | [] => [chr ']']
  | j :: js => separator isFirst ++ (dumps j ++ dumpsItems false js)

/-- The entries of an object, to the end of the object. -/
def dumpsEntries (isFirst : Bool) : List (Text × Json) → Text
  | [] => [chr '}']
  | (key, j) :: es =>
    separator isFirst ++ (dumpsString key ++ (text ": " ++ (dumps j ++ dumpsEntries false es)))

end

/-! ## Reading -/

/-- Blanks between tokens. -/
def isBlank (c : CodePoint) : Bool := c = chr ' ' || c = chr '\t' || c = chr '\n' || c = chr '\r'

def skipBlanks (s : Text) : Text := s.dropWhile isBlank

def hexValue (c : CodePoint) : Option Nat :=
  if 48 ≤ c.val ∧ c.val ≤ 57 then some (c.val - 48)
  else if 97 ≤ c.val ∧ c.val ≤ 102 then some (c.val - 87)
  else if 65 ≤ c.val ∧ c.val ≤ 70 then some (c.val - 55)
  else none

/-- Where the reader of a string is: between characters, after a backslash, or in the
digits of a `\u` escape of which `left + 1` are still to come. -/
inductive StringState where
  | plain
  | escaped
  | hex (left acc : Nat)

/-- A string from somewhere inside, to its closing quote. The flag says that a code point
was written as a `\u` escape. -/
def scanString : StringState → Text → Option (List (CodePoint × Bool) × Text)
  | _, [] => none
  | .plain, c :: s =>
    if c = chr '"' then some ([], s)
    else if c = chr '\\' then scanString .escaped s
    else if c.val < 0x20 then none
    else (scanString .plain s).map fun r => ((c, false) :: r.1, r.2)
  | .escaped, c :: s =>
    if c = chr 'u' then scanString (.hex 3 0) s
    else if c = chr '/' then (scanString .plain s).map fun r => ((c, false) :: r.1, r.2)
    else
      match shortEscapes.find? fun e => e.1 = c with
      | none => none
      | some e => (scanString .plain s).map fun r => ((e.2, false) :: r.1, r.2)
  | .hex left acc, c :: s =>
    match hexValue c with
    | none => none
    | some v =>
      match left with
      | 0 => (scanString .plain s).map fun r => ((.ofNat _ (acc * 16 + v), true) :: r.1, r.2)
      | left + 1 => scanString (.hex left (acc * 16 + v)) s

def isHigh (c : CodePoint) : Bool := decide (0xD800 ≤ c.val ∧ c.val ≤ 0xDBFF)

def isLow (c : CodePoint) : Bool := decide (0xDC00 ≤ c.val ∧ c.val ≤ 0xDFFF)

/-- Two `\u` escapes for one code point are joined. -/
def joinPairs : List (CodePoint × Bool) → Text
  | [] => []
  | [u] => [u.1]
  | u :: v :: us =>
    if u.2 && v.2 && isHigh u.1 && isLow v.1 then
      .ofNat _ (0x10000 + (u.1.val - 0xD800) * 1024 + (v.1.val - 0xDC00)) :: joinPairs us
    else u.1 :: joinPairs (v :: us)

/-- A string after its opening quote. -/
def parseString (s : Text) : Option (Text × Text) :=
  (scanString .plain s).map fun r => (joinPairs r.1, r.2)

def isDigit (c : CodePoint) : Bool := decide (48 ≤ c.val ∧ c.val ≤ 57)

/-- The number that digits spell. -/
def digitsValue (ds : Text) : Nat := Nat.ofDigits 10 (ds.map fun c => c.val - 48).reverse

/-- Digits without a needless zero in front: what is read, and the rest. -/
def parseDigits (s : Text) : Option (Text × Text) :=
  match s with
  | [] => none
  | c :: rest =>
    if c = chr '0' then some ([c], rest)
    else if isDigit c then some (s.takeWhile isDigit, s.dropWhile isDigit)
    else none

/-- `.` and digits, if both are there. -/
def parseFraction (s : Text) : Text × Text :=
  match s with
  | [] => ([], s)
  | c :: rest =>
    if c = chr '.' ∧ rest.takeWhile isDigit ≠ [] then (rest.takeWhile isDigit, rest.dropWhile isDigit)
    else ([], s)

/-- `e`, a sign, and digits, if the digits are there. -/
def parseExponent (s : Text) : Option Int × Text :=
  match s with
  | [] => (none, s)
  | c :: rest =>
    if c = chr 'e' ∨ c = chr 'E' then
      let negative := rest.head? = some (chr '-')
      let digits := if negative ∨ rest.head? = some (chr '+') then rest.tail else rest
      if digits.takeWhile isDigit = [] then (none, s)
      else
        let value : Int := digitsValue (digits.takeWhile isDigit)
        (some (if negative then -value else value), digits.dropWhile isDigit)
    else (none, s)

/-- A number: an integer if it has neither fraction nor exponent. -/
def parseNumber (s : Text) : Option (Json × Text) :=
  let negative := s.head? = some (chr '-')
  let sign : Int := if negative then -1 else 1
  (parseDigits (if negative then s.tail else s)).map fun (digits, rest) =>
    let fraction := parseFraction rest
    let exponent := parseExponent fraction.2
    if fraction.1 = [] ∧ exponent.1 = none then (.int (sign * digitsValue digits), exponent.2)
    else (.float (sign * digitsValue (digits ++ fraction.1)) (exponent.1.getD 0 - fraction.1.length), exponent.2)

/-- The words of the grammar. -/
def words : List (Text × Json) :=
  [(text "null", .null), (text "true", .bool true), (text "false", .bool false), (text "NaN", .nan),
    (text "Infinity", .infinity false), (text "-Infinity", .infinity true)]

/-- A word or a number. -/
def parseAtom (s : Text) : Option (Json × Text) :=
  match words.find? fun w => w.1.isPrefixOf s with
  | some w => some (w.2, s.drop w.1.length)
  | none => parseNumber s

mutual

/-- A value, from its first character. -/
def parseValue : Nat → Text → Option (Json × Text)
  | 0, _ => none
  | fuel + 1, s =>
    match s with
    | [] => none
    | c :: rest =>
      if c = chr '"' then (parseString rest).map fun r => (.string r.1, r.2)
      else if c = chr '[' then
        if (skipBlanks rest).head? = some (chr ']') then some (.array [], (skipBlanks rest).tail)
        else (parseItems fuel (skipBlanks rest)).map fun r => (.array r.1, r.2)
      else if c = chr '{' then
        if (skipBlanks rest).head? = some (chr '}') then some (.object [], (skipBlanks rest).tail)
        else (parseEntries fuel (skipBlanks rest)).map fun r => (.object r.1, r.2)
      else parseAtom s

/-- The elements of a list that is not empty, from the first one to the end of the list. -/
def parseItems : Nat → Text → Option (List Json × Text)
  | 0, _ => none
  | fuel + 1, s =>
    (parseValue fuel s).bind fun (j, rest) =>
      match skipBlanks rest with
      | [] => none
      | c :: rest =>
        if c = chr ']' then some ([j], rest)
        else if c = chr ',' then (parseItems fuel (skipBlanks rest)).map fun r => (j :: r.1, r.2)
        else none

/-- The entries of an object that is not empty. -/
def parseEntries : Nat → Text → Option (List (Text × Json) × Text)
  | 0, _ => none
  | fuel + 1, s =>
    if s.head? ≠ some (chr '"') then none
    else
      (parseString s.tail).bind fun (key, rest) =>
        if (skipBlanks rest).head? ≠ some (chr ':') then none
        else
          (parseValue fuel (skipBlanks (skipBlanks rest).tail)).bind fun (j, rest) =>
            match skipBlanks rest with
            | [] => none
            | c :: rest =>
              if c = chr '}' then some ([(key, j)], rest)
              else if c = chr ',' then (parseEntries fuel (skipBlanks rest)).map fun r => ((key, j) :: r.1, r.2)
              else none

end

/-- `json.loads`: one value with blanks around it, and no byte order mark in front. -/
def loads (s : Text) : Option Json :=
  if s.head? = some (.ofNat _ 0xFEFF) then none
  else
    (parseValue (s.length + 1) (skipBlanks s)).bind fun (j, rest) =>
      if skipBlanks rest = [] then some j else none

/-! ## Strings are read back -/

/-- The code points that the reader finds for one that was printed. -/
def unitsOf (c : CodePoint) : List (CodePoint × Bool) :=
  if (shortEscapes.any fun e => e.2 = c) ∨ 0x20 ≤ c.val ∧ c.val ≤ 0x7E then [(c, false)]
  else if c.val < 0x10000 then [(c, true)]
  else
    [(.ofNat _ (0xD800 + (c.val - 0x10000) / 1024), true), (.ofNat _ (0xDC00 + (c.val - 0x10000) % 1024), true)]

/-- A text as it is read back. -/
def readBackText (t : Text) : Text := joinPairs (t.flatMap unitsOf)

/-- A hexadecimal digit is read back. -/
theorem hexValue_hexDigit : ∀ d < 16, hexValue (hexDigit d) = some d := by decide

/-- The letters of the short escapes are different. -/
theorem shortEscapes_find {e : CodePoint × CodePoint} (he : e ∈ shortEscapes) :
    e.1 ≠ chr 'u' ∧ e.1 ≠ chr '/' ∧ (shortEscapes.find? fun e' => e'.1 = e.1) = some e := by
  have hall : (shortEscapes.all fun e => decide (e.1 ≠ chr 'u') && decide (e.1 ≠ chr '/') &&
      decide ((shortEscapes.find? fun e' => e'.1 = e.1) = some e)) = true := by decide
  have hone := List.all_eq_true.mp hall e he
  simp only [Bool.and_eq_true, decide_eq_true_eq] at hone
  exact ⟨hone.1.1, hone.1.2, hone.2⟩

/-- The escape of one unit is scanned as that unit. -/
theorem scanString_escapeUnit {n : Nat} (hn : n < 0x10000) (s : Text) :
    scanString .plain (escapeUnit n ++ s) =
      (scanString .plain s).map fun r => ((.ofNat _ n, true) :: r.1, r.2) := by
  have hvalue : (((0 * 16 + n / 4096 % 16) * 16 + n / 256 % 16) * 16 + n / 16 % 16) * 16 + n % 16 = n := by
    omega
  show scanString (.hex 3 0) ([hexDigit (n / 4096 % 16), hexDigit (n / 256 % 16), hexDigit (n / 16 % 16),
    hexDigit (n % 16)] ++ s) = _
  simp only [List.cons_append, List.nil_append, scanString,
    hexValue_hexDigit _ (Nat.mod_lt _ (by decide : 16 > 0)), hvalue]

/-- What is printed for a character is scanned as its units. -/
theorem scanString_escapePoint (c : CodePoint) (s : Text) :
    scanString .plain (escapePoint c ++ s) =
      (scanString .plain s).map fun r => (unitsOf c ++ r.1, r.2) := by
  rw [escapePoint]
  cases hfind : shortEscapes.find? fun e => e.2 = c with
  | some e =>
    have hmem := List.mem_of_find?_eq_some hfind
    obtain rfl : e.2 = c := by simpa using List.find?_some hfind
    obtain ⟨hu, hslash, hback⟩ := shortEscapes_find hmem
    have hany : (shortEscapes.any fun e' => e'.2 = e.2) = true := List.any_eq_true.mpr ⟨e, hmem, by simp⟩
    have hunits : unitsOf e.2 = [(e.2, false)] := if_pos (.inl hany)
    show scanString .escaped (e.1 :: s) = _
    rw [scanString, if_neg hu, if_neg hslash, hback, hunits]
    rfl
  | none =>
    have hnone : ∀ e ∈ shortEscapes, e.2 ≠ c := by simpa using hfind
    have hany : ¬(shortEscapes.any fun e => e.2 = c) = true := by
      rw [Bool.not_eq_true, List.any_eq_false]
      simpa using hnone
    have hquote : c ≠ chr '"' := fun h => hnone (chr '"', chr '"') (by simp [shortEscapes]) h.symm
    have hback : c ≠ chr '\\' := fun h => hnone (chr '\\', chr '\\') (by simp [shortEscapes]) h.symm
    dsimp only
    by_cases hprint : 0x20 ≤ c.val ∧ c.val ≤ 0x7E
    · have hunits : unitsOf c = [(c, false)] := if_pos (.inr hprint)
      rw [if_pos hprint, hunits]
      show scanString .plain (c :: s) = _
      rw [scanString, if_neg hquote, if_neg hback, if_neg (Nat.not_lt.mpr hprint.1)]
      rfl
    rw [if_neg hprint, unitsOf, if_neg (not_or.mpr ⟨hany, hprint⟩)]
    by_cases hbmp : c.val < 0x10000
    · rw [if_pos hbmp, if_pos hbmp, scanString_escapeUnit hbmp]
      have hc : Fin.ofNat 0x110000 c.val = c := Fin.ext (Nat.mod_eq_of_lt c.isLt)
      rw [hc]
      rfl
    · have hlt := c.isLt
      have hhigh : 0xD800 + (c.val - 0x10000) / 1024 < 0x10000 := by omega
      have hlow : 0xDC00 + (c.val - 0x10000) % 1024 < 0x10000 := by omega
      rw [if_neg hbmp, if_neg hbmp, List.append_assoc, scanString_escapeUnit hhigh, scanString_escapeUnit hlow,
        Option.map_map]
      rfl

/-- A printed string is parsed up to its closing quote. -/
theorem parseString_dumps (t rest : Text) :
    parseString (t.flatMap escapePoint ++ chr '"' :: rest) = some (readBackText t, rest) := by
  have hscan : scanString .plain (t.flatMap escapePoint ++ chr '"' :: rest) = some (t.flatMap unitsOf, rest) := by
    induction t with
    | nil => rfl
    | cons c t ih =>
      rw [List.flatMap_cons, List.append_assoc, scanString_escapePoint, ih]
      rfl
  rw [parseString, hscan]
  rfl

/-- Only a high surrogate looks at the unit behind it. -/
theorem joinPairs_cons {u : CodePoint × Bool} (hu : isHigh u.1 = false) (us : List (CodePoint × Bool)) :
    joinPairs (u :: us) = u.1 :: joinPairs us := by
  cases us with
  | nil => rfl
  | cons v us =>
    rw [joinPairs, hu, Bool.and_false, Bool.false_and]
    rfl

/-- **Text without surrogates** is read back as it is. -/
theorem readBackText_of_scalar {t : Text} (h : ∀ c ∈ t, Scalar c) : readBackText t = t := by
  induction t with
  | nil => rfl
  | cons c t ih =>
    have hc : Scalar c := h c List.mem_cons_self
    have ih' : joinPairs (t.flatMap unitsOf) = t := ih fun d hd => h d (List.mem_cons_of_mem _ hd)
    have hnot : isHigh c = false := by
      rw [isHigh, decide_eq_false_iff_not]
      rcases hc with hc | hc
      · omega
      · omega
    rw [readBackText, List.flatMap_cons, unitsOf]
    split
    · rw [List.singleton_append, joinPairs_cons hnot, ih']
    split
    · rw [List.singleton_append, joinPairs_cons hnot, ih']
    · next hbmp =>
      -- two surrogates, which are joined again
      have hlt := c.isLt
      have hh : isHigh (.ofNat _ (0xD800 + (c.val - 0x10000) / 1024)) = true := by
        rw [isHigh, decide_eq_true_iff, Fin.val_ofNat]
        omega
      have hl : isLow (.ofNat _ (0xDC00 + (c.val - 0x10000) % 1024)) = true := by
        rw [isLow, decide_eq_true_iff, Fin.val_ofNat]
        omega
      rw [List.cons_append, List.cons_append, joinPairs, hh, hl, List.nil_append]
      show Fin.ofNat _ _ :: joinPairs (t.flatMap unitsOf) = c :: t
      rw [ih']
      refine congrArg (· :: t) (Fin.ext ?_)
      simp only [Fin.val_ofNat]
      omega
/-! ## Numbers are read back -/

/-- A number ends here. -/
def NumberEnds (rest : Text) : Prop :=
  ∀ c ∈ rest.head?, isDigit c = false ∧ c ≠ chr '.' ∧ c ≠ chr 'e' ∧ c ≠ chr 'E'

theorem decimalDigits_lt {n : Nat} : ∀ d ∈ decimalDigits n, d < 10 := by
  intro d hd
  rw [decimalDigits] at hd
  split at hd
  · rw [List.mem_singleton.mp hd]
    decide
  · exact Nat.digits_lt_base (by decide) (List.mem_reverse.mp hd)

/-- The digits of a number have its value. -/
theorem ofDigits_decimalDigits (n : Nat) : Nat.ofDigits 10 (decimalDigits n).reverse = n := by
  rw [decimalDigits]
  split
  · next h =>
    rw [h]
    rfl
  · rw [List.reverse_reverse, Nat.ofDigits_digits]

theorem isDigit_ofNat {d : Nat} (hd : d < 10) : isDigit (.ofNat _ (48 + d)) = true := by
  rw [isDigit, decide_eq_true_iff, Fin.val_ofNat]
  omega

/-- A printed number is made of digits. -/
theorem isDigit_of_mem_decimal {n : Nat} {c : CodePoint} (hc : c ∈ decimal n) : isDigit c = true := by
  obtain ⟨d, hd, rfl⟩ := List.mem_map.mp hc
  exact isDigit_ofNat (decimalDigits_lt d hd)

/-- Reading the digits of a number gives the number back. -/
theorem digitsValue_decimal (n : Nat) : digitsValue (decimal n) = n := by
  have hmap : (decimal n).map (fun c => c.val - 48) = decimalDigits n := by
    rw [decimal, List.map_map]
    conv_rhs => rw [← List.map_id (decimalDigits n)]
    refine List.map_congr_left fun d hd => ?_
    have hlt := decimalDigits_lt d hd
    simp only [Function.comp_apply, Fin.val_ofNat, id_eq]
    omega
  rw [digitsValue, hmap, ofDigits_decimalDigits]

/-- The first digit, which is a zero only in `0`. -/
theorem decimal_cons (n : Nat) : ∃ c ds, decimal n = c :: ds ∧ isDigit c = true ∧ (c = chr '0' → ds = []) := by
  by_cases hn : n = 0
  · subst hn
    exact ⟨chr '0', [], rfl, by decide, fun _ => rfl⟩
  · have hdigits : decimalDigits n = (Nat.digits 10 n).reverse := if_neg hn
    have hne : Nat.digits 10 n ≠ [] := Nat.digits_ne_nil_iff_ne_zero.mpr hn
    have hlast := Nat.getLast_digit_ne_zero 10 hn
    obtain ⟨d, ds, hcons⟩ := List.exists_cons_of_ne_nil (mt List.reverse_eq_nil_iff.mp hne)
    have hd : d ≠ 0 := by
      have hhead : (Nat.digits 10 n).reverse.head? = some d := by rw [hcons]; rfl
      rw [List.head?_reverse, List.getLast?_eq_getLast_of_ne_nil hne] at hhead
      exact Option.some.inj hhead ▸ hlast
    have hmem : d ∈ decimalDigits n := by rw [hdigits, hcons]; exact List.mem_cons_self
    have hlt := decimalDigits_lt d hmem
    refine ⟨.ofNat _ (48 + d), ds.map fun d => .ofNat _ (48 + d), ?_, isDigit_ofNat hlt, ?_⟩
    · rw [decimal, hdigits, hcons]
      rfl
    · intro hzero
      have hval := congrArg Fin.val hzero
      rw [Fin.val_ofNat] at hval
      have hchr : (chr '0').val = 48 := rfl
      omega

/-- The digits end where the number does. -/
theorem takeWhile_isDigit {n : Nat} {rest : Text} (h : ∀ c ∈ rest.head?, isDigit c = false) :
    (decimal n ++ rest).takeWhile isDigit = decimal n ∧ (decimal n ++ rest).dropWhile isDigit = rest := by
  have hall : ∀ c ∈ decimal n, isDigit c = true := fun c hc => isDigit_of_mem_decimal hc
  rw [List.takeWhile_append_of_pos hall, List.dropWhile_append_of_pos hall]
  cases rest with
  | nil => exact ⟨List.append_nil _, rfl⟩
  | cons c rest =>
    have hc : isDigit c = false := h c rfl
    rw [List.takeWhile_cons_of_neg (by simp [hc]), List.dropWhile_cons_of_neg (by simp [hc])]
    exact ⟨List.append_nil _, rfl⟩

theorem parseDigits_decimal (n : Nat) {rest : Text} (h : ∀ c ∈ rest.head?, isDigit c = false) :
    parseDigits (decimal n ++ rest) = some (decimal n, rest) := by
  obtain ⟨htake, hdrop⟩ := takeWhile_isDigit (n := n) h
  obtain ⟨c, ds, heq, hc, hzero⟩ := decimal_cons n
  rw [heq, List.cons_append] at htake hdrop ⊢
  rw [parseDigits]
  split
  · next hc0 =>
    rw [hzero hc0]
    rfl
  · rw [htake, hdrop]

/-- There is no fraction where no point stands. -/
theorem parseFraction_of_ends {rest : Text} (h : ∀ c ∈ rest.head?, c ≠ chr '.') :
    parseFraction rest = ([], rest) := by
  cases rest with
  | nil => rfl
  | cons c rest => exact if_neg fun hc => h c rfl hc.1

/-- And no exponent where no `e` stands. -/
theorem parseExponent_of_ends {rest : Text} (h : NumberEnds rest) : parseExponent rest = (none, rest) := by
  cases rest with
  | nil => rfl
  | cons c rest =>
    obtain ⟨-, -, he, hE⟩ := h c rfl
    exact if_neg fun hc => hc.elim he hE

/-- The sign in front of a printed number, and its digits. -/
theorem signedDecimal_append (n : Int) (rest : Text) :
    ((signedDecimal n ++ rest).head? = some (chr '-') ↔ n < 0) ∧
      (if n < 0 then (signedDecimal n ++ rest).tail else signedDecimal n ++ rest) = decimal n.natAbs ++ rest := by
  cases n with
  | ofNat n =>
    obtain ⟨c, ds, heq, hc, -⟩ := decimal_cons n
    have hne : c ≠ chr '-' := by
      rintro rfl
      exact absurd hc (by decide)
    have hnot : ¬Int.ofNat n < 0 := Int.not_lt.mpr (Int.natCast_nonneg n)
    rw [if_neg hnot]
    refine ⟨iff_of_false ?_ hnot, rfl⟩
    rw [signedDecimal, heq]
    exact fun h => hne (Option.some.inj h)
  | negSucc n =>
    have hneg : Int.negSucc n < 0 := Int.negSucc_lt_zero n
    rw [if_pos hneg]
    exact ⟨iff_of_true rfl hneg, rfl⟩

theorem sign_mul_natAbs (n : Int) : (if n < 0 then (-1 : Int) else 1) * n.natAbs = n := by
  split
  · omega
  · omega

/-- A printed number, up to where its digits end. -/
theorem parseNumber_signedDecimal (n : Int) {rest : Text} (h : ∀ c ∈ rest.head?, isDigit c = false ∧ c ≠ chr '.') :
    parseNumber (signedDecimal n ++ rest) =
      match parseExponent rest with
      | (none, rest) => some (.int n, rest)
      | (some e, rest) => some (.float n e, rest) := by
  obtain ⟨hsign, hdigits⟩ := signedDecimal_append n rest
  have hfraction := parseFraction_of_ends fun c hc => (h c hc).2
  have hparse := parseDigits_decimal n.natAbs fun c hc => (h c hc).1
  simp only [parseNumber, hsign]
  rw [hdigits, hparse, Option.map_some]
  dsimp only
  rw [hfraction, digitsValue_decimal, List.append_nil, digitsValue_decimal, sign_mul_natAbs]
  rcases hexp : parseExponent rest with ⟨exponent, rest'⟩
  cases exponent with
  | none => rfl
  | some e =>
    dsimp only
    rw [if_neg fun hnone => Option.some_ne_none e hnone.2]
    show some (Json.float n (e - 0), rest') = _
    rw [Int.sub_zero]

/-- A printed integer is parsed as itself, when what follows cannot go on with it. -/
theorem parseNumber_int (n : Int) {rest : Text} (h : NumberEnds rest) :
    parseNumber (signedDecimal n ++ rest) = some (.int n, rest) := by
  rw [parseNumber_signedDecimal n fun c hc => ⟨(h c hc).1, (h c hc).2.1⟩, parseExponent_of_ends h]

/-- A printed exponent is parsed as itself. -/
theorem parseExponent_signedDecimal (e : Int) {rest : Text} (h : NumberEnds rest) :
    parseExponent (chr 'e' :: (signedDecimal e ++ rest)) = (some e, rest) := by
  obtain ⟨hsign, hdigits⟩ := signedDecimal_append e rest
  obtain ⟨htake, hdrop⟩ := takeWhile_isDigit (n := e.natAbs) fun c hc => (h c hc).1
  have hplus : (signedDecimal e ++ rest).head? ≠ some (chr '+') := by
    cases e with
    | ofNat n =>
      obtain ⟨c, ds, heq, hc, -⟩ := decimal_cons n
      rw [signedDecimal, heq]
      intro heq
      rw [Option.some.inj heq] at hc
      exact absurd hc (by decide)
    | negSucc n => exact fun heq => absurd (Option.some.inj heq) (by decide)
  have hne : decimal e.natAbs ≠ [] := by
    obtain ⟨c, ds, heq, -, -⟩ := decimal_cons e.natAbs
    rw [heq]
    exact List.cons_ne_nil _ _
  simp only [parseExponent, hsign, hplus, or_false, hdigits, htake, hdrop, hne, if_false,
    digitsValue_decimal]
  refine congrArg (fun n => (some n, rest)) ?_
  split
  · omega
  · omega

/-- A printed number with an exponent is parsed as itself. -/
theorem parseNumber_float (mantissa exponent : Int) {rest : Text} (h : NumberEnds rest) :
    parseNumber (signedDecimal mantissa ++ (chr 'e' :: (signedDecimal exponent ++ rest))) =
      some (.float mantissa exponent, rest) := by
  have hend : ∀ c ∈ (chr 'e' :: (signedDecimal exponent ++ rest)).head?, isDigit c = false ∧ c ≠ chr '.' := by
    rintro c ⟨⟩
    exact ⟨by decide, by decide⟩
  rw [parseNumber_signedDecimal mantissa hend, parseExponent_signedDecimal exponent h]

theorem words_begin {w : Text × Json} (hw : w ∈ words) :
    ∃ a b rest, w.1 = a :: b :: rest ∧ isDigit a = false ∧ isDigit b = false := by
  have hall : ((words.map Prod.fst).all fun w => decide (2 ≤ w.length) && (w.take 2).all (!isDigit ·)) = true := by
    decide
  have hone := List.all_eq_true.mp hall w.1 (List.mem_map_of_mem hw)
  rw [Bool.and_eq_true, decide_eq_true_iff] at hone
  obtain ⟨hlen, htake⟩ := hone
  match hw1 : w.1 with
  | [] | [_] =>
    rw [hw1] at hlen
    simp at hlen
  | a :: b :: rest =>
    rw [hw1] at htake
    simp at htake
    exact ⟨a, b, rest, rfl, htake.1, htake.2⟩

/-- No word begins like a number. -/
theorem parseAtom_signedDecimal (n : Int) (rest : Text) :
    parseAtom (signedDecimal n ++ rest) = parseNumber (signedDecimal n ++ rest) := by
  have hfind : (words.find? fun w => w.1.isPrefixOf (signedDecimal n ++ rest)) = none := by
    rw [List.find?_eq_none]
    intro w hw hbegins
    obtain ⟨a, b, ws, heq, ha, hb⟩ := words_begin hw
    obtain ⟨s, hs⟩ := List.isPrefixOf_iff_prefix.mp hbegins
    rw [heq] at hs
    cases n with
    | ofNat n =>
      obtain ⟨c, ds, hn, hc, -⟩ := decimal_cons n
      rw [signedDecimal, hn] at hs
      obtain rfl : a = c := Option.some.inj (congrArg List.head? hs)
      rw [ha] at hc
      cases hc
    | negSucc n =>
      obtain ⟨c, ds, hn, hc, -⟩ := decimal_cons (n + 1)
      rw [signedDecimal, hn] at hs
      obtain rfl : b = c := Option.some.inj (congrArg (fun s => s.tail.head?) hs)
      rw [hb] at hc
      cases hc
  rw [parseAtom, hfind]
/-! ## Documents are read back -/

/-- Induction over a document: a list or an object when its parts are done. -/
theorem induct {P : Json → Prop} (null : P .null) (bool : ∀ b, P (.bool b)) (int : ∀ n, P (.int n))
    (float : ∀ m e, P (.float m e)) (nan : P .nan) (infinity : ∀ b, P (.infinity b)) (string : ∀ s, P (.string s))
    (array : ∀ items, (∀ j ∈ items, P j) → P (.array items))
    (object : ∀ entries : List (Text × Json), (∀ e ∈ entries, P e.2) → P (.object entries)) (j : Json) : P j := by
  refine @Json.rec P (fun items => ∀ j ∈ items, P j) (fun entries => ∀ e ∈ entries, P e.2) (fun e => P e.2)
    null bool int float nan infinity string array object ?_ ?_ ?_ ?_ ?_ j
  · exact fun _ h => absurd h List.not_mem_nil
  · intro j js hj hjs k hk
    rcases List.mem_cons.mp hk with rfl | hk
    · exact hj
    · exact hjs k hk
  · exact fun _ h => absurd h List.not_mem_nil
  · intro e es he hes k hk
    rcases List.mem_cons.mp hk with rfl | hk
    · exact he
    · exact hes k hk
  · exact fun _ _ h => h

mutual

/-- A document as it is read back. -/
def readBack : Json → Json
  | .null => .null
  | .bool b => .bool b
  | .int n => .int n
  | .float mantissa exponent => .float mantissa exponent
  | .nan => .nan
  | .infinity negative => .infinity negative
  | .string s => .string (readBackText s)
  | .array items => .array (readBackItems items)
  | .object entries => .object (readBackEntries entries)

def readBackItems : List Json → List Json
  | [] => []
  | j :: js => readBack j :: readBackItems js

def readBackEntries : List (Text × Json) → List (Text × Json)
  | [] => []
  | (key, j) :: es => (readBackText key, readBack j) :: readBackEntries es

end

theorem skipBlanks_cons {c : CodePoint} (hc : isBlank c = false) (s : Text) : skipBlanks (c :: s) = c :: s :=
  List.dropWhile_cons_of_neg (by simp [hc])

theorem skipBlanks_blank (s : Text) : skipBlanks (chr ' ' :: s) = skipBlanks s :=
  List.dropWhile_cons_of_pos (by decide)

/-- How a printed document begins. -/
theorem dumps_cons (j : Json) : ∃ c s, dumps j = c :: s ∧ isBlank c = false ∧ c ≠ chr ']' := by
  have hdecimal : ∀ n : Int, ∃ c s, signedDecimal n = c :: s ∧ isBlank c = false ∧ c ≠ chr ']' := by
    intro n
    cases n with
    | ofNat n =>
      obtain ⟨c, ds, heq, hc, -⟩ := decimal_cons n
      refine ⟨c, ds, heq, ?_, ?_⟩
      · rw [Bool.eq_false_iff]
        intro hblank
        simp only [isBlank, Bool.or_eq_true, decide_eq_true_eq] at hblank
        rcases hblank with ((rfl | rfl) | rfl) | rfl <;> exact absurd hc (by decide)
      · rintro rfl
        exact absurd hc (by decide)
    | negSucc n => exact ⟨chr '-', _, rfl, by decide, by decide⟩
  cases j with
  | null => exact ⟨chr 'n', _, rfl, by decide, by decide⟩
  | bool b =>
    cases b with
    | true => exact ⟨chr 't', _, rfl, by decide, by decide⟩
    | false => exact ⟨chr 'f', _, rfl, by decide, by decide⟩
  | int n => exact hdecimal n
  | float mantissa exponent =>
    obtain ⟨c, s, heq, hc⟩ := hdecimal mantissa
    exact ⟨c, s ++ (chr 'e' :: signedDecimal exponent), by rw [dumps, heq]; rfl, hc⟩
  | nan => exact ⟨chr 'N', _, rfl, by decide, by decide⟩
  | infinity negative =>
    cases negative with
    | true => exact ⟨chr '-', _, rfl, by decide, by decide⟩
    | false => exact ⟨chr 'I', _, rfl, by decide, by decide⟩
  | string s => exact ⟨chr '"', _, rfl, by decide, by decide⟩
  | array items => exact ⟨chr '[', _, rfl, by decide, by decide⟩
  | object entries => exact ⟨chr '{', _, rfl, by decide, by decide⟩

/-- No value is printed as empty text. -/
theorem dumps_length_pos (j : Json) : 0 < (dumps j).length := by
  obtain ⟨c, s, heq, -⟩ := dumps_cons j
  rw [heq]
  exact Nat.succ_pos _

/-- No printed value begins with a blank. -/
theorem skipBlanks_dumps (j : Json) (s : Text) : skipBlanks (dumps j ++ s) = dumps j ++ s := by
  obtain ⟨c, s', heq, hc, -⟩ := dumps_cons j
  rw [heq, List.cons_append, skipBlanks_cons hc]

/-- A document that is printed is read, whatever follows, with fuel for its length. -/
def ReadsBack (j : Json) : Prop :=
  ∀ fuel rest, (dumps j).length ≤ fuel → NumberEnds rest →
    parseValue fuel (dumps j ++ rest) = some (readBack j, rest)

/-- A number in a list ends at the comma or at the bracket. -/
theorem numberEnds_items (js : List Json) (rest : Text) : NumberEnds (dumpsItems false js ++ rest) := by
  cases js with
  | nil =>
    rintro c ⟨⟩
    exact ⟨by decide, by decide, by decide, by decide⟩
  | cons j js =>
    rintro c ⟨⟩
    exact ⟨by decide, by decide, by decide, by decide⟩

/-- A number in an object ends at the comma or at the brace. -/
theorem numberEnds_entries (es : List (Text × Json)) (rest : Text) :
    NumberEnds (dumpsEntries false es ++ rest) := by
  cases es with
  | nil =>
    rintro c ⟨⟩
    exact ⟨by decide, by decide, by decide, by decide⟩
  | cons e es =>
    rintro c ⟨⟩
    exact ⟨by decide, by decide, by decide, by decide⟩

/-- The last element of a list. -/
theorem parseItems_last {j : Json} (h : ReadsBack j) {fuel : Nat} (hfuel : (dumps j).length ≤ fuel) (rest : Text) :
    parseItems (fuel + 1) (dumps j ++ chr ']' :: rest) = some ([readBack j], rest) := by
  have hends : NumberEnds (chr ']' :: rest) := numberEnds_items [] rest
  rw [parseItems, h fuel _ hfuel hends, Option.bind_some]
  dsimp only
  rw [skipBlanks_cons (by decide)]
  exact if_pos rfl

/-- An element of a list that is not the last one. -/
theorem parseItems_next {j : Json} (h : ReadsBack j) {fuel : Nat} (hfuel : (dumps j).length ≤ fuel) {k : Json}
    (ks : List Json) (rest : Text) :
    parseItems (fuel + 1) (dumps j ++ (dumpsItems false (k :: ks) ++ rest)) =
      (parseItems fuel (dumpsItems true (k :: ks) ++ rest)).map fun r => (readBack j :: r.1, r.2) := by
  have htext : dumpsItems false (k :: ks) ++ rest = chr ',' :: chr ' ' :: (dumpsItems true (k :: ks) ++ rest) := rfl
  have hskip : skipBlanks (chr ' ' :: (dumpsItems true (k :: ks) ++ rest)) = dumpsItems true (k :: ks) ++ rest := by
    rw [skipBlanks_blank]
    show skipBlanks ((dumps k ++ dumpsItems false ks) ++ rest) = dumps k ++ dumpsItems false ks ++ rest
    rw [List.append_assoc, skipBlanks_dumps]
  rw [parseItems, h fuel _ hfuel (numberEnds_items (k :: ks) rest), Option.bind_some, htext]
  dsimp only
  rw [skipBlanks_cons (by decide)]
  dsimp only
  rw [if_neg (by decide), if_pos rfl, hskip]

/-- The elements of a list, one after the other. -/
theorem parseItems_dumps {j : Json} {js : List Json} (h : ∀ k ∈ j :: js, ReadsBack k) {fuel : Nat} (rest : Text)
    (hfuel : (dumpsItems true (j :: js)).length ≤ fuel) :
    parseItems fuel (dumpsItems true (j :: js) ++ rest) = some (readBackItems (j :: js), rest) := by
  induction js generalizing j fuel with
  | nil =>
    have htext : dumpsItems true [j] ++ rest = dumps j ++ chr ']' :: rest := List.append_assoc (dumps j) [chr ']'] rest
    have hlen : (dumpsItems true [j]).length = (dumps j).length + 1 := @List.length_append _ (dumps j) _
    obtain ⟨fuel, rfl⟩ : ∃ f, fuel = f + 1 := ⟨fuel - 1, by omega⟩
    rw [htext]
    exact parseItems_last (h j List.mem_cons_self) (by omega) rest
  | cons k ks ih =>
    have htext : dumpsItems true (j :: k :: ks) ++ rest = dumps j ++ (dumpsItems false (k :: ks) ++ rest) :=
      List.append_assoc (dumps j) (dumpsItems false (k :: ks)) rest
    have hlen : (dumpsItems true (j :: k :: ks)).length =
        (dumps j).length + ((dumpsItems true (k :: ks)).length + 2) :=
      @List.length_append _ (dumps j) _
    obtain ⟨fuel, rfl⟩ : ∃ f, fuel = f + 1 := ⟨fuel - 1, by omega⟩
    rw [htext, parseItems_next (h j List.mem_cons_self) (by omega),
      ih (fun l hl => h l (List.mem_cons_of_mem _ hl)) (by omega)]
    rfl

/-- The key of an entry and its value, up to what follows them. -/
theorem parseEntries_head (key : Text) {j : Json} (h : ReadsBack j) {fuel : Nat} (hfuel : (dumps j).length ≤ fuel)
    {after : Text} (hafter : NumberEnds after) :
    (dumpsString key ++ (text ": " ++ (dumps j ++ after))).head? = some (chr '"') ∧
      parseString (dumpsString key ++ (text ": " ++ (dumps j ++ after))).tail =
        some (readBackText key, text ": " ++ (dumps j ++ after)) ∧
      (skipBlanks (text ": " ++ (dumps j ++ after))).head? = some (chr ':') ∧
      parseValue fuel (skipBlanks (skipBlanks (text ": " ++ (dumps j ++ after))).tail) =
        some (readBack j, after) := by
  have hskip : skipBlanks (text ": " ++ (dumps j ++ after)) = text ": " ++ (dumps j ++ after) :=
    skipBlanks_cons (by decide) _
  have hvalue : skipBlanks (text ": " ++ (dumps j ++ after)).tail = dumps j ++ after :=
    (skipBlanks_blank _).trans (skipBlanks_dumps j after)
  refine ⟨rfl, ?_, ?_, ?_⟩
  · show parseString ((key.flatMap escapePoint ++ [chr '"']) ++ _) = _
    rw [List.append_assoc]
    exact parseString_dumps key _
  · rw [hskip]
    rfl
  · rw [hskip, hvalue]
    exact h fuel after hfuel hafter

/-- The last entry of an object. -/
theorem parseEntries_last {key : Text} {j : Json} (h : ReadsBack j) {fuel : Nat} (hfuel : (dumps j).length ≤ fuel)
    (rest : Text) :
    parseEntries (fuel + 1) (dumpsString key ++ (text ": " ++ (dumps j ++ chr '}' :: rest))) =
      some ([(readBackText key, readBack j)], rest) := by
  have hends : NumberEnds (chr '}' :: rest) := numberEnds_entries [] rest
  obtain ⟨hquote, hkey, hcolon, hvalue⟩ := parseEntries_head key h hfuel hends
  rw [parseEntries, if_neg (not_not.mpr hquote), hkey, Option.bind_some]
  dsimp only
  rw [if_neg (not_not.mpr hcolon), hvalue, Option.bind_some]
  dsimp only
  rw [skipBlanks_cons (by decide)]
  exact if_pos rfl

/-- An entry of an object that is not the last one. -/
theorem parseEntries_next {key : Text} {j : Json} (h : ReadsBack j) {fuel : Nat} (hfuel : (dumps j).length ≤ fuel)
    (e : Text × Json) (es : List (Text × Json)) (rest : Text) :
    parseEntries (fuel + 1)
        (dumpsString key ++ (text ": " ++ (dumps j ++ (dumpsEntries false (e :: es) ++ rest)))) =
      (parseEntries fuel (dumpsEntries true (e :: es) ++ rest)).map fun r =>
        ((readBackText key, readBack j) :: r.1, r.2) := by
  have htext : dumpsEntries false (e :: es) ++ rest = chr ',' :: chr ' ' :: (dumpsEntries true (e :: es) ++ rest) := rfl
  have hskip : skipBlanks (chr ' ' :: (dumpsEntries true (e :: es) ++ rest)) = dumpsEntries true (e :: es) ++ rest :=
    (skipBlanks_blank _).trans (skipBlanks_cons (by decide) _)
  obtain ⟨hquote, hkey, hcolon, hvalue⟩ :=
    parseEntries_head key h hfuel (numberEnds_entries (e :: es) rest)
  rw [parseEntries, if_neg (not_not.mpr hquote), hkey, Option.bind_some]
  dsimp only
  rw [if_neg (not_not.mpr hcolon), hvalue, Option.bind_some, htext]
  dsimp only
  rw [skipBlanks_cons (by decide)]
  dsimp only
  rw [if_neg (by decide), if_pos rfl, hskip]

/-- The entries of an object, one after the other. -/
theorem parseEntries_dumps {e : Text × Json} {es : List (Text × Json)} (h : ∀ e' ∈ e :: es, ReadsBack e'.2)
    {fuel : Nat} (rest : Text) (hfuel : (dumpsEntries true (e :: es)).length ≤ fuel) :
    parseEntries fuel (dumpsEntries true (e :: es) ++ rest) = some (readBackEntries (e :: es), rest) := by
  have happend : ∀ a b c d : Text, (a ++ (text ": " ++ (b ++ c))) ++ d = a ++ (text ": " ++ (b ++ (c ++ d))) := by
    intro a b c d
    simp only [List.append_assoc]
  have hlength : ∀ a b c : Text, (a ++ (text ": " ++ (b ++ c))).length = a.length + b.length + c.length + 2 := by
    intro a b c
    have hcolon : (text ": ").length = 2 := rfl
    simp only [List.length_append]
    omega
  induction es generalizing e fuel with
  | nil =>
    obtain ⟨key, j⟩ := e
    have htext : dumpsEntries true [(key, j)] ++ rest =
        dumpsString key ++ (text ": " ++ (dumps j ++ chr '}' :: rest)) := happend _ _ _ _
    have hlen : (dumpsEntries true [(key, j)]).length = (dumpsString key).length + (dumps j).length + 1 + 2 :=
      hlength _ _ _
    have hj : ReadsBack j := h _ List.mem_cons_self
    obtain ⟨fuel, rfl⟩ : ∃ f, fuel = f + 1 := ⟨fuel - 1, by omega⟩
    rw [htext]
    exact parseEntries_last hj (by omega) rest
  | cons e' es ih =>
    obtain ⟨key, j⟩ := e
    have htext : dumpsEntries true ((key, j) :: e' :: es) ++ rest =
        dumpsString key ++ (text ": " ++ (dumps j ++ (dumpsEntries false (e' :: es) ++ rest))) := happend _ _ _ _
    have hlen : (dumpsEntries true ((key, j) :: e' :: es)).length =
        (dumpsString key).length + (dumps j).length + ((dumpsEntries true (e' :: es)).length + 2) + 2 :=
      hlength _ _ _
    have hj : ReadsBack j := h _ List.mem_cons_self
    obtain ⟨fuel, rfl⟩ : ∃ f, fuel = f + 1 := ⟨fuel - 1, by omega⟩
    rw [htext, parseEntries_next hj (by omega), ih (fun l hl => h l (List.mem_cons_of_mem _ hl)) (by omega)]
    rfl

theorem parseValue_atom {fuel : Nat} {c : CodePoint} {s : Text} (hquote : c ≠ chr '"') (hlist : c ≠ chr '[')
    (hobject : c ≠ chr '{') : parseValue (fuel + 1) (c :: s) = parseAtom (c :: s) := by
  rw [parseValue]
  rw [if_neg hquote, if_neg hlist, if_neg hobject]

/-- A printed number, which no other value begins like. -/
theorem parseValue_number {fuel : Nat} (n : Int) (s : Text) :
    parseValue (fuel + 1) (signedDecimal n ++ s) = parseNumber (signedDecimal n ++ s) := by
  rw [← parseAtom_signedDecimal]
  cases n with
  | ofNat n =>
    obtain ⟨c, ds, heq, hc, -⟩ := decimal_cons n
    have hne : ∀ d, isDigit d = false → c ≠ d := by
      rintro d hd rfl
      rw [hd] at hc
      cases hc
    rw [signedDecimal, heq]
    exact parseValue_atom (hne _ (by decide)) (hne _ (by decide)) (hne _ (by decide))
  | negSucc n => exact parseValue_atom (by decide) (by decide) (by decide)

/-- Every value is read back as `readBack` says, by induction on the value. -/
theorem readsBack (j : Json) : ReadsBack j := by
  intro fuel rest hfuel hrest
  have hpos := dumps_length_pos j
  obtain ⟨fuel, rfl⟩ : ∃ f, fuel = f + 1 := ⟨fuel - 1, by omega⟩
  induction j using induct generalizing fuel rest with
  | null => exact parseValue_atom (by decide) (by decide) (by decide)
  | bool b =>
    cases b with
    | true => exact parseValue_atom (by decide) (by decide) (by decide)
    | false => exact parseValue_atom (by decide) (by decide) (by decide)
  | int n =>
    rw [dumps, parseValue_number, parseNumber_int n hrest]
    rfl
  | float mantissa exponent =>
    rw [dumps, List.append_assoc, parseValue_number]
    exact parseNumber_float mantissa exponent hrest
  | nan => exact parseValue_atom (by decide) (by decide) (by decide)
  | infinity negative =>
    cases negative with
    | true => exact parseValue_atom (by decide) (by decide) (by decide)
    | false => exact parseValue_atom (by decide) (by decide) (by decide)
  | string s =>
    have hstring : parseString ((s.flatMap escapePoint ++ [chr '"']) ++ rest) = some (readBackText s, rest) := by
      rw [List.append_assoc]
      exact parseString_dumps s rest
    show parseValue (fuel + 1) (chr '"' :: ((s.flatMap escapePoint ++ [chr '"']) ++ rest)) = _
    rw [parseValue]
    rw [if_pos rfl, hstring]
    rfl
  | array items ih =>
    cases items with
    | nil => rfl
    | cons j js =>
      have hitems : ∀ k ∈ j :: js, ReadsBack k := by
        intro k hk fuel rest hfuel hrest
        have hk0 : 0 < (dumps k).length := dumps_length_pos k
        obtain ⟨fuel, rfl⟩ : ∃ f, fuel = f + 1 := ⟨fuel - 1, by omega⟩
        exact ih k hk rest hrest hk0 fuel hfuel
      have hskip : skipBlanks (dumpsItems true (j :: js) ++ rest) = dumpsItems true (j :: js) ++ rest := by
        show skipBlanks ((dumps j ++ dumpsItems false js) ++ rest) = (dumps j ++ dumpsItems false js) ++ rest
        rw [List.append_assoc, skipBlanks_dumps]
      have hopen : (dumpsItems true (j :: js) ++ rest).head? ≠ some (chr ']') := by
        obtain ⟨c, s, heq, -, hc⟩ := dumps_cons j
        show ((dumps j ++ dumpsItems false js) ++ rest).head? ≠ _
        rw [heq]
        exact fun h => hc (Option.some.inj h)
      show parseValue (fuel + 1) (chr '[' :: (dumpsItems true (j :: js) ++ rest)) = _
      rw [parseValue]
      rw [if_neg (by decide), if_pos rfl, hskip, if_neg hopen,
        parseItems_dumps hitems rest (Nat.le_of_succ_le_succ hfuel)]
      rfl
  | object entries ih =>
    cases entries with
    | nil => rfl
    | cons e es =>
      have hentries : ∀ e' ∈ e :: es, ReadsBack e'.2 := by
        intro e' he' fuel rest hfuel hrest
        have he0 : 0 < (dumps e'.2).length := dumps_length_pos e'.2
        obtain ⟨fuel, rfl⟩ : ∃ f, fuel = f + 1 := ⟨fuel - 1, by omega⟩
        exact ih e' he' rest hrest he0 fuel hfuel
      have hskip : skipBlanks (dumpsEntries true (e :: es) ++ rest) = dumpsEntries true (e :: es) ++ rest :=
        skipBlanks_cons (by decide) _
      have hopen : (dumpsEntries true (e :: es) ++ rest).head? ≠ some (chr '}') :=
        fun h => absurd (Option.some.inj h) (by decide)
      show parseValue (fuel + 1) (chr '{' :: (dumpsEntries true (e :: es) ++ rest)) = _
      rw [parseValue]
      rw [if_neg (by decide), if_neg (by decide), if_pos rfl, hskip, if_neg hopen,
        parseEntries_dumps hentries rest (Nat.le_of_succ_le_succ hfuel)]
      rfl

/-! ## Printed text is printable -/

/-- Printable ASCII. -/
def Printable (t : Text) : Prop := ∀ c ∈ t, 0x20 ≤ c.val ∧ c.val ≤ 0x7E

instance (t : Text) : Decidable (Printable t) :=
  List.decidableBAll (fun c : CodePoint => 0x20 ≤ c.val ∧ c.val ≤ 0x7E) t

theorem printable_append {s t : Text} : Printable (s ++ t) ↔ Printable s ∧ Printable t := List.forall_mem_append

theorem printable_cons {c : CodePoint} {t : Text} :
    Printable (c :: t) ↔ (0x20 ≤ c.val ∧ c.val ≤ 0x7E) ∧ Printable t := List.forall_mem_cons

theorem printable_escapeUnit (n : Nat) : Printable (escapeUnit n) := by
  have hdigit : ∀ d < 16, 0x20 ≤ (hexDigit d).val ∧ (hexDigit d).val ≤ 0x7E := by decide
  have hpos : 16 > 0 := by decide
  rw [escapeUnit, printable_append]
  refine ⟨by decide, ?_⟩
  simp only [printable_cons]
  exact ⟨hdigit _ (Nat.mod_lt _ hpos), hdigit _ (Nat.mod_lt _ hpos), hdigit _ (Nat.mod_lt _ hpos),
    hdigit _ (Nat.mod_lt _ hpos), fun c hc => absurd hc List.not_mem_nil⟩

theorem printable_escapePoint (c : CodePoint) : Printable (escapePoint c) := by
  rw [escapePoint]
  cases hfind : shortEscapes.find? fun e => e.2 = c with
  | some e =>
    have hall : (shortEscapes.all fun e => decide (Printable [chr '\\', e.1])) = true := by decide
    exact of_decide_eq_true (List.all_eq_true.mp hall e (List.mem_of_find?_eq_some hfind))
  | none =>
    dsimp only
    split
    · next h => exact printable_cons.mpr ⟨h, fun c hc => absurd hc List.not_mem_nil⟩
    split
    · exact printable_escapeUnit _
    · exact printable_append.mpr ⟨printable_escapeUnit _, printable_escapeUnit _⟩

/-- A printed string is printable ASCII: everything else is escaped. -/
theorem printable_dumpsString (s : Text) : Printable (dumpsString s) := by
  rw [dumpsString, printable_cons, printable_append]
  refine ⟨by decide, ?_, by decide⟩
  intro c hc
  obtain ⟨d, -, hd⟩ := List.mem_flatMap.mp hc
  exact printable_escapePoint d c hd

theorem printable_signedDecimal (n : Int) : Printable (signedDecimal n) := by
  have hdecimal : ∀ n, Printable (decimal n) := by
    intro n c hc
    have hdigit := isDigit_of_mem_decimal hc
    rw [isDigit, decide_eq_true_iff] at hdigit
    omega
  cases n with
  | ofNat n => exact hdecimal n
  | negSucc n => exact printable_cons.mpr ⟨by decide, hdecimal _⟩

/-- **Printed text is printable ASCII.** -/
theorem printable_dumps (j : Json) : Printable (dumps j) := by
  have hseparator : ∀ isFirst, Printable (separator isFirst) := by decide
  induction j using induct with
  | null => decide
  | bool b => cases b <;> decide
  | int n => exact printable_signedDecimal n
  | float mantissa exponent =>
    exact printable_append.mpr ⟨printable_signedDecimal _,
      printable_cons.mpr ⟨by decide, printable_signedDecimal _⟩⟩
  | nan => decide
  | infinity negative => cases negative <;> decide
  | string s => exact printable_dumpsString s
  | array items ih =>
    have hitems : ∀ isFirst, Printable (dumpsItems isFirst items) := by
      induction items with
      | nil => exact fun _ => by rw [dumpsItems]; decide
      | cons j js ihjs =>
        intro isFirst
        rw [dumpsItems, printable_append, printable_append]
        exact ⟨hseparator isFirst, ih j List.mem_cons_self,
          ihjs (fun k hk => ih k (List.mem_cons_of_mem _ hk)) false⟩
    exact printable_cons.mpr ⟨by decide, hitems true⟩
  | object entries ih =>
    have hentries : ∀ isFirst, Printable (dumpsEntries isFirst entries) := by
      induction entries with
      | nil => exact fun _ => by rw [dumpsEntries]; decide
      | cons e es ihes =>
        intro isFirst
        obtain ⟨key, j⟩ := e
        rw [dumpsEntries, printable_append, printable_append, printable_append, printable_append]
        exact ⟨hseparator isFirst, printable_dumpsString key, by decide, ih (key, j) List.mem_cons_self,
          ihes (fun k hk => ih k (List.mem_cons_of_mem _ hk)) false⟩
    exact printable_cons.mpr ⟨by decide, hentries true⟩

/-- So `json.dumps` prints ASCII. -/
theorem ascii_dumps (j : Json) : Ascii (dumps j) := by
  intro c hc
  have hprintable := printable_dumps j c hc
  omega

/-- Printed text has no line break. -/
theorem newline_notMem_dumps (j : Json) : chr '\n' ∉ dumps j :=
  fun h => absurd (printable_dumps j _ h) (by decide)

theorem numberEnds_blanks {blanks : Text} (h : skipBlanks blanks = []) : NumberEnds blanks := by
  intro c hc
  have hblank : isBlank c = true := List.dropWhile_eq_nil_iff.mp h c (List.mem_of_mem_head? hc)
  simp only [isBlank, Bool.or_eq_true, decide_eq_true_eq] at hblank
  rcases hblank with ((rfl | rfl) | rfl) | rfl <;> decide

/-- **What has been printed is read back**, also with blanks behind it. -/
theorem loads_dumps (j : Json) {blanks : Text} (h : skipBlanks blanks = []) :
    loads (dumps j ++ blanks) = some (readBack j) := by
  have hmark : (dumps j ++ blanks).head? ≠ some (.ofNat _ 0xFEFF) := by
    obtain ⟨c, s, heq, -⟩ := dumps_cons j
    have hc := printable_dumps j c (heq ▸ List.mem_cons_self)
    rw [heq]
    intro hmark
    have hval : c.val = 0xFEFF := congrArg Fin.val (Option.some.inj hmark)
    omega
  have hlen : (dumps j).length ≤ (dumps j ++ blanks).length + 1 := by
    rw [List.length_append]
    omega
  rw [loads, if_neg hmark, skipBlanks_dumps, readsBack j _ _ hlen (numberEnds_blanks h), Option.bind_some]
  exact if_pos h

/-! ## Lengths -/

/-- How many characters a code point takes in a printed string. -/
def escapeSize (c : CodePoint) : Nat :=
  if shortEscapes.any fun e => e.2 = c then 2
  else if 0x20 ≤ c.val ∧ c.val ≤ 0x7E then 1
  else if c.val < 0x10000 then 6
  else 12

/-- The length of a printed string, its quotes included. -/
def stringSize (s : Text) : Nat := (s.map escapeSize).sum + 2

/-- A backslash, `u` and four digits. -/
theorem length_escapeUnit (n : Nat) : (escapeUnit n).length = 6 := rfl

theorem length_escapePoint (c : CodePoint) : (escapePoint c).length = escapeSize c := by
  unfold escapePoint escapeSize
  split
  · next e hfind =>
    rw [if_pos (List.any_eq_true.mpr ⟨e, List.mem_of_find?_eq_some hfind, List.find?_some hfind⟩)]
    rfl
  · next hfind =>
    have hnone : ¬(shortEscapes.any fun e => e.2 = c) = true := by
      rw [List.any_eq_true]
      rintro ⟨e, he, hc⟩
      exact List.find?_eq_none.mp hfind e he hc
    rw [if_neg hnone]
    split
    · rfl
    · split
      · exact length_escapeUnit _
      · rw [List.length_append, length_escapeUnit, length_escapeUnit]

/-- The length of a printed string, from its characters. -/
theorem length_dumpsString (s : Text) : (dumpsString s).length = stringSize s := by
  have hsum : (s.map fun c => (escapePoint c).length) = s.map escapeSize :=
    List.map_congr_left fun c _ => length_escapePoint c
  rw [dumpsString, List.length_cons, List.length_append, List.length_flatMap, hsum]
  rfl

/-- The number of digits of a number. -/
theorem length_decimal (n : Nat) : (decimal n).length = Nat.log 10 n + 1 := by
  rw [decimal, List.length_map, decimalDigits]
  split
  · next h =>
    rw [h, Nat.log_zero_right]
    rfl
  · next h => rw [List.length_reverse, Nat.length_digits 10 n (by decide) h]

/-! ## Entries of an object -/

/-- The value of a key, its last one. -/
def lookup (entries : List (Text × Json)) (key : Text) : Option Json :=
  (entries.reverse.find? fun e => e.1 = key).map Prod.snd

/-- A list is read back item by item. -/
theorem readBackItems_eq_map (items : List Json) : readBackItems items = items.map readBack := by
  induction items with
  | nil => rfl
  | cons j js ih =>
    rw [List.map_cons, ← ih]
    rfl

end Json

end Logvine
