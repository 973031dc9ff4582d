import Logvine.Network.Client

/-!
# The grammar of requests

What a request text has to be for each operation, against what `from_json` accepts.

- `Grammar`: the request is an object that names the operation and has its fields, as
  texts that can be encoded;
- `fromJson_of_grammar`: such a request is accepted, as this operation;
- `parsesGrammar_iff`: when nothing else is, and everything else raises a `ValueError`.

The source is `operations.py`, 18–34 and 448–476, with the `parse` methods. A text that is
JSON but no object has no `get` (465), and a field that is no list may still have a length
and be iterated over (309–321): these are the requests that are accepted outside of the
grammar or raise something else.
-/

namespace Logvine

open Json

namespace Json

/-- A list. -/
def IsArray : Json → Prop
  | .array _ => True
  | _ => False

/-- A text that UTF-8 can encode. -/
def Encodable : Json → Prop
  | .string s => (encodeUtf8 s).isSome
  | _ => False

end Json

/-! ## Fields -/

/-- The field is a text with this encoding. -/
def FieldText (data : RequestData) (field : Text) (bs : Bytes) : Prop :=
  ∃ s, lookup data field = some (.string s) ∧ encodeUtf8 s = some bs

/-- The field is a text that is not empty, with this encoding. -/
def FieldKey (data : RequestData) (field : Text) (bs : Bytes) : Prop :=
  ∃ s, lookup data field = some (.string s) ∧ s ≠ [] ∧ encodeUtf8 s = some bs

/-- The field is a list of texts with these encodings. -/
def FieldTexts (data : RequestData) (field : Text) (bss : List Bytes) : Prop :=
  ∃ ss : List Text, lookup data field = some (.array (ss.map .string)) ∧
    List.Forall₂ (fun s bs => encodeUtf8 s = some bs) ss bss

/-- The fields of a request for an operation. -/
def RequestOperation.Fields (data : RequestData) : RequestOperation → Prop
  | .put key value => FieldKey data (text "key") key ∧ FieldText data (text "value") value
  | .get key => FieldKey data (text "key") key
  | .delete key => FieldKey data (text "key") key
  | .batchPut keys values =>
    FieldTexts data (text "keys") keys ∧ FieldTexts data (text "values") values ∧ keys ≠ [] ∧
      keys.length = values.length
  | .readKeyRange startKey endKey =>
    FieldKey data (text "start_key") startKey ∧ FieldKey data (text "end_key") endKey

/-- A list of a batch as `parse` reads it; a missing one is empty. -/
def batchField (data : RequestData) (field : Text) : Json := (lookup data field).getD (.array [])

/-- `keys` and `values` are refused as empty, or they have lengths; if these are equal, both
are lists or some element is no text that can be encoded. -/
def RegularLists (data : RequestData) : Prop :=
  (batchField data (text "keys")).truthy = true → (batchField data (text "values")).truthy = true →
    ∃ ks vs, (batchField data (text "keys")).iter? = some ks ∧ (batchField data (text "values")).iter? = some vs ∧
      (ks.length = vs.length →
        ((batchField data (text "keys")).IsArray ∧ (batchField data (text "values")).IsArray) ∨
          ∃ item ∈ ks ++ vs, ¬item.Encodable)

variable [Python]

/-- The request text of an operation. -/
def Grammar (data : Text) (operation : RequestOperation) : Prop :=
  ∃ requestData name, loads data = some (.object requestData) ∧
    lookup requestData (text "operation") = some (.string name) ∧ upper name = operation.typeName ∧
    operation.Fields requestData

/-- `from_json` accepts the request exactly if it is in the grammar, and raises a
`ValueError` otherwise. -/
structure ParsesGrammar (data : Text) : Prop where
  accepts : ∀ operation, OperationFactory.fromJson data = .ok operation ↔ Grammar data operation
  refuses : (∀ operation, ¬Grammar data operation) →
    ∃ message, OperationFactory.fromJson data = .error (.valueError message)

/-- If the request is JSON, it is an object, whose operation is a text if there is one;
a batch has regular lists. -/
def Regular (data : Text) : Prop :=
  ∀ j, loads data = some j → ∃ requestData, j = .object requestData ∧
    ∀ value, lookup requestData (text "operation") = some value → ∃ name, value = .string name ∧
      (upper name = text "BATCH_PUT" → RegularLists requestData)

/-! ## Values and their encodings -/

/-- A `ValueError`. -/
def PyError.IsValueError : PyError → Prop
  | .valueError _ => True
  | .keyError _ | .batchTooLarge _ | .other _ => False

/-- The value is a text with this encoding. -/
def EncodedAs (value : Json) (bs : Bytes) : Prop := ∃ s, value = .string s ∧ encodeUtf8 s = some bs

/-- `ensure_bytes` returns the bytes of the text, or raises a `ValueError`. -/
theorem yields_encodedAs (value : Json) : Yields (EncodedAs value) PyError.IsValueError (ensureBytes value) := by
  unfold ensureBytes
  split
  · next s =>
    split
    · next bs hbs => exact yields_pure ⟨s, rfl, hbs⟩
    · exact yields_throw trivial
  · exact yields_throw trivial

/-- For text that can be encoded it returns them. -/
theorem ensureBytes_of_encodedAs {value : Json} {bs : Bytes} (h : EncodedAs value bs) :
    ensureBytes value = .ok bs := by
  obtain ⟨s, rfl, hbs⟩ := h
  simp only [ensureBytes, hbs]

/-- A list is encoded item by item, and the first that cannot be raises. -/
theorem yields_encodedAs_list (values : List Json) :
    Yields (List.Forall₂ EncodedAs values) PyError.IsValueError (values.mapM ensureBytes) := by
  induction values with
  | nil => exact yields_pure .nil
  | cons value values ih =>
    rw [List.mapM_cons]
    exact (yields_encodedAs value).bind fun bs hbs => ih.bind fun bss hbss => yields_pure (.cons hbs hbss)

/-- Items that can all be encoded give all their bytes. -/
theorem mapM_ensureBytes {values : List Json} {bss : List Bytes} (h : List.Forall₂ EncodedAs values bss) :
    values.mapM ensureBytes = .ok bss := by
  induction h with
  | nil => rfl
  | cons hbs _ ih =>
    rw [List.mapM_cons, ensureBytes_of_encodedAs hbs, ih]
    rfl

/-! ## The parsers -/

namespace RequestOperation

/-- The parser of the operation's member of `OperationType`. -/
def parser : RequestOperation → RequestData → Except PyError RequestOperation
  | .put _ _ => parsePut
  | .get _ => parseGet
  | .delete _ => parseDelete
  | .batchPut _ _ => parseBatchPut
  | .readKeyRange _ _ => parseReadKeyRange

omit [Python] in
/-- A field that is read as a text is there; if it is a true value the text is not empty. -/
theorem fieldText_of_encodedAs {data : RequestData} {field : Text} {bs : Bytes}
    (h : EncodedAs (data.get field) bs) : FieldText data field bs := by
  obtain ⟨s, hs, hbs⟩ := h
  refine ⟨s, ?_, hbs⟩
  unfold RequestData.get at hs
  cases hlookup : lookup data field with
  | none =>
    rw [hlookup] at hs
    cases hs
  | some value =>
    rw [hlookup, Option.getD_some] at hs
    rw [hs]

omit [Python] in
/-- A field that is truthy and can be encoded is a key. -/
theorem fieldKey_of_encodedAs {data : RequestData} {field : Text} {bs : Bytes}
    (htruthy : (data.get field).truthy = true) (h : EncodedAs (data.get field) bs) : FieldKey data field bs := by
  obtain ⟨s, hs, hbs⟩ := fieldText_of_encodedAs h
  refine ⟨s, hs, ?_, hbs⟩
  rintro rfl
  rw [RequestData.get, hs] at htruthy
  cases htruthy

/-- A field of text is encoded as its bytes. -/
theorem ensureBytes_of_fieldText {data : RequestData} {field : Text} {bs : Bytes} (h : FieldText data field bs) :
    ensureBytes (data.get field) = .ok bs := by
  obtain ⟨s, hs, hbs⟩ := h
  exact ensureBytes_of_encodedAs ⟨s, by rw [RequestData.get, hs, Option.getD_some], hbs⟩

omit [Python] in
theorem fieldText_of_fieldKey {data : RequestData} {field : Text} {bs : Bytes} (h : FieldKey data field bs) :
    FieldText data field bs :=
  let ⟨s, hs, _, hbs⟩ := h
  ⟨s, hs, hbs⟩

omit [Python] in
/-- A key passes the check `if not key`. -/
theorem truthy_of_fieldKey {data : RequestData} {field : Text} {bs : Bytes} (h : FieldKey data field bs) :
    (data.get field).truthy = true := by
  obtain ⟨s, hs, hne, -⟩ := h
  rw [RequestData.get, hs, Option.getD_some, truthy]
  simpa using hne

omit [Python] in
/-- For its bytes are not empty. -/
theorem ne_nil_of_fieldKey {data : RequestData} {field : Text} {bs : Bytes} (h : FieldKey data field bs) :
    bs ≠ [] := by
  obtain ⟨s, -, hne, hbs⟩ := h
  exact encodeUtf8_ne_nil hne hbs

/-! ### What the parsers accept has the fields -/

/-- The parser of `put` accepts its fields or raises a `ValueError`. -/
theorem yields_parsePut_fields (data : RequestData) :
    Yields (Fields data) PyError.IsValueError (parsePut data) := by
  simp only [parsePut]
  refine yields_check trivial fun hkey => yields_check trivial fun _ => ?_
  refine (yields_encodedAs _).bind fun key hkey' => (yields_encodedAs _).bind fun value hvalue => yields_pure ?_
  exact ⟨fieldKey_of_encodedAs (by simpa using hkey) hkey', fieldText_of_encodedAs hvalue⟩

/-- So do the two parsers that read a key only. -/
theorem yields_parseKey_fields {required : PyError} (hrequired : required.IsValueError)
    {operation : Bytes → RequestOperation} {data : RequestData}
    (hfields : ∀ key, FieldKey data (text "key") key → (operation key).Fields data) :
    Yields (Fields data) PyError.IsValueError (parseKey required operation data) := by
  simp only [parseKey]
  refine yields_check hrequired fun hkey => (yields_encodedAs _).bind fun key hkey' => yields_pure ?_
  exact hfields key (fieldKey_of_encodedAs (by simpa using hkey) hkey')

/-- And that of the range read. -/
theorem yields_parseReadKeyRange_fields (data : RequestData) :
    Yields (Fields data) PyError.IsValueError (parseReadKeyRange data) := by
  simp only [parseReadKeyRange]
  refine yields_check trivial fun hkeys => ?_
  have htruthy : (data.get (text "start_key")).truthy = true ∧ (data.get (text "end_key")).truthy = true := by
    simpa using hkeys
  refine (yields_encodedAs _).bind fun startKey hstart => (yields_encodedAs _).bind fun endKey hend => yields_pure ?_
  exact ⟨fieldKey_of_encodedAs htruthy.1 hstart, fieldKey_of_encodedAs htruthy.2 hend⟩

/-! ### The lists of a batch -/

omit [Python] in
theorem len_of_iter? {value : Json} {items : List Json} (h : value.iter? = some items) :
    value.len = .ok items.length := by
  rw [len, h]

omit [Python] in
theorem iter_of_iter? {value : Json} {items : List Json} (h : value.iter? = some items) :
    value.iter = .ok items := by
  rw [iter, h]

omit [Python] in
/-- A true value has elements, if it can be iterated. -/
theorem ne_nil_of_truthy {value : Json} (htruthy : value.truthy = true) {items : List Json}
    (h : value.iter? = some items) : items ≠ [] := by
  cases value with
  | string s =>
    obtain rfl := Option.some.inj h
    have hne : s ≠ [] := by simpa [truthy] using htruthy
    simpa using hne
  | array js =>
    obtain rfl := Option.some.inj h
    simpa [truthy] using htruthy
  | object entries =>
    obtain rfl := Option.some.inj h
    cases entries with
    | nil => cases htruthy
    | cons e es => simp [List.eraseDups_cons]
  | null | bool _ | int _ | float _ _ | nan | infinity _ => cases h

omit [Python] in
/-- What `ensure_bytes` accepts. -/
theorem encodable_iff {value : Json} : value.Encodable ↔ ∃ bs, EncodedAs value bs := by
  constructor
  · intro h
    cases value with
    | string s =>
      obtain ⟨bs, hbs⟩ := Option.isSome_iff_exists.mp h
      exact ⟨bs, s, rfl, hbs⟩
    | _ => exact absurd h not_false
  · rintro ⟨bs, s, rfl, hbs⟩
    exact Option.isSome_iff_exists.mpr ⟨bs, hbs⟩

omit [Python] in
/-- A list can be encoded exactly when each of its items can. -/
theorem exists_encodedAs_iff {items : List Json} :
    (∃ bss, List.Forall₂ EncodedAs items bss) ↔ ∀ item ∈ items, item.Encodable := by
  induction items with
  | nil => exact iff_of_true ⟨[], .nil⟩ (List.forall_mem_nil _)
  | cons item items ih =>
    rw [List.forall_mem_cons, ← ih, encodable_iff]
    constructor
    · rintro ⟨bss, h⟩
      cases h with
      | cons hbs hbss => exact ⟨⟨_, hbs⟩, ⟨_, hbss⟩⟩
    · rintro ⟨⟨bs, hbs⟩, ⟨bss, hbss⟩⟩
      exact ⟨bs :: bss, .cons hbs hbss⟩

omit [Python] in
/-- A list whose elements are texts is a list of texts. -/
theorem texts_of_encodedAs {items : List Json} {bss : List Bytes} (h : List.Forall₂ EncodedAs items bss) :
    ∃ ss : List Text, items = ss.map .string ∧ List.Forall₂ (fun s bs => encodeUtf8 s = some bs) ss bss := by
  induction h with
  | nil => exact ⟨[], rfl, .nil⟩
  | cons hbs _ ih =>
    obtain ⟨s, rfl, hs⟩ := hbs
    obtain ⟨ss, rfl, hss⟩ := ih
    exact ⟨s :: ss, rfl, .cons hs hss⟩

omit [Python] in
theorem encodedAs_of_texts {ss : List Text} {bss : List Bytes}
    (h : List.Forall₂ (fun s bs => encodeUtf8 s = some bs) ss bss) :
    List.Forall₂ EncodedAs (ss.map .string) bss := by
  induction h with
  | nil => exact .nil
  | cons hs _ ih => exact .cons ⟨_, rfl, hs⟩ ih

omit [Python] in
/-- A batch field that holds a list of texts. -/
theorem fieldTexts_of_batchField {data : RequestData} {field : Text} (htruthy : (batchField data field).truthy = true)
    (harray : (batchField data field).IsArray) {items : List Json} (hitems : (batchField data field).iter? = some items)
    {bss : List Bytes} (h : List.Forall₂ EncodedAs items bss) : FieldTexts data field bss := by
  unfold batchField at htruthy harray hitems
  cases hlookup : lookup data field with
  | none =>
    rw [hlookup] at htruthy
    cases htruthy
  | some value =>
    rw [hlookup, Option.getD_some] at harray hitems
    cases value with
    | array js =>
      obtain rfl := Option.some.inj hitems
      obtain ⟨ss, rfl, hss⟩ := texts_of_encodedAs h
      exact ⟨ss, hlookup, hss⟩
    | _ => exact absurd harray not_false

/-- What is left of `parse` behind the checks, when both values can be iterated. -/
theorem parseBatchPut_eq {data : RequestData} {ks vs : List Json}
    (hkeys : (batchField data (text "keys")).truthy = true) (hvalues : (batchField data (text "values")).truthy = true)
    (hks : (batchField data (text "keys")).iter? = some ks) (hvs : (batchField data (text "values")).iter? = some vs) :
    parseBatchPut data =
      if ks.length ≠ vs.length then .error batchPutLengths
      else do
        let keys ← ks.mapM ensureBytes
        let values ← vs.mapM ensureBytes
        return .batchPut keys values := by
  unfold batchField at hkeys hvalues hks hvs
  simp only [parseBatchPut, hkeys, hvalues, len_of_iter? hks, len_of_iter? hvs, iter_of_iter? hks, iter_of_iter? hvs]
  rfl

/-- `len` raises for a value that has none. -/
theorem exists_other_of_not_sized {data : RequestData} (hkeys : (batchField data (text "keys")).truthy = true)
    (hvalues : (batchField data (text "values")).truthy = true)
    (h : (batchField data (text "keys")).iter? = none ∨ (batchField data (text "values")).iter? = none) :
    ∃ message, parseBatchPut data = .error (.other message) := by
  unfold batchField at hkeys hvalues h
  have hnone : ∀ {value : Json}, value.iter? = none → ∃ message, value.len = .error (.other message) := by
    intro value hvalue
    exact ⟨_, by rw [len, hvalue]⟩
  simp only [parseBatchPut, hkeys, hvalues]
  cases hks : ((lookup data (text "keys")).getD (.array [])).iter? with
  | none =>
    obtain ⟨message, hlen⟩ := hnone hks
    exact ⟨message, by rw [hlen]; rfl⟩
  | some ks =>
    obtain ⟨message, hlen⟩ := hnone (h.resolve_left (hks ▸ Option.some_ne_none ks))
    exact ⟨message, by rw [len_of_iter? hks, hlen]; rfl⟩

/-- The parser of `batch_put`, for fields that Python can iterate over as lists. -/
theorem yields_parseBatchPut_fields {data : RequestData} (hregular : RegularLists data) :
    Yields (Fields data) PyError.IsValueError (parseBatchPut data) := by
  by_cases htruthy : (batchField data (text "keys")).truthy = true ∧ (batchField data (text "values")).truthy = true
  · obtain ⟨hkeys, hvalues⟩ := htruthy
    obtain ⟨ks, vs, hks, hvs, hlists⟩ := hregular hkeys hvalues
    rw [parseBatchPut_eq hkeys hvalues hks hvs]
    split
    · exact yields_throw trivial
    · next hlen =>
      refine (yields_encodedAs_list ks).bind fun keys hkeys' =>
        (yields_encodedAs_list vs).bind fun values hvalues' => yields_pure ?_
      rcases hlists (not_not.mp hlen) with ⟨hkeysArray, hvaluesArray⟩ | ⟨item, hitem, hnot⟩
      · have hne : keys ≠ [] := by
          rintro rfl
          exact ne_nil_of_truthy hkeys hks (List.forall₂_nil_right_iff.mp hkeys')
        refine ⟨fieldTexts_of_batchField hkeys hkeysArray hks hkeys',
          fieldTexts_of_batchField hvalues hvaluesArray hvs hvalues', hne, ?_⟩
        rw [← hkeys'.length_eq, ← hvalues'.length_eq, not_not.mp hlen]
      -- an element that has no encoding would have been refused
      · refine absurd ?_ hnot
        rcases List.mem_append.mp hitem with h | h
        · exact exists_encodedAs_iff.mp ⟨keys, hkeys'⟩ item h
        · exact exists_encodedAs_iff.mp ⟨values, hvalues'⟩ item h
  · have hfalsy : (!(batchField data (text "keys")).truthy || !(batchField data (text "values")).truthy) = true := by
      simpa only [Bool.or_eq_true, Bool.not_eq_true', ← Bool.not_eq_true, ← not_and_or] using htruthy
    unfold batchField at hfalsy
    simp only [parseBatchPut, hfalsy, if_true]
    exact yields_throw trivial

/-! ### What has the fields is accepted -/

/-- A field that is a key is accepted by the parsers that read one. -/
theorem parseKey_of_fieldKey {required : PyError} {operation : Bytes → RequestOperation} {data : RequestData}
    {key : Bytes} (h : FieldKey data (text "key") key) :
    parseKey required operation data = .ok (operation key) := by
  simp only [parseKey, truthy_of_fieldKey h, ensureBytes_of_fieldText (fieldText_of_fieldKey h)]
  rfl

/-- The parser of an operation accepts the fields of that operation. -/
theorem parser_of_fields {data : RequestData} {operation : RequestOperation} (h : operation.Fields data) :
    operation.parser data = .ok operation := by
  cases operation with
  | put key value =>
    obtain ⟨hkey, s, hs, hvalue⟩ := h
    have hget : data.get (text "value") = .string s := by rw [RequestData.get, hs, Option.getD_some]
    simp only [parser, parsePut, truthy_of_fieldKey hkey, hget, ensureBytes_of_fieldText (fieldText_of_fieldKey hkey),
      ensureBytes_of_encodedAs ⟨s, rfl, hvalue⟩]
    rfl
  | get key => exact parseKey_of_fieldKey h
  | delete key => exact parseKey_of_fieldKey h
  | batchPut keys values =>
    obtain ⟨⟨ks, hks, hkeys⟩, ⟨vs, hvs, hvalues⟩, hne, hlen⟩ := h
    have hlists : ks.length = vs.length := hkeys.length_eq.trans (hlen.trans hvalues.length_eq.symm)
    have hksne : ks ≠ [] := by
      rintro rfl
      exact hne (List.forall₂_nil_left_iff.mp hkeys)
    have hvsne : vs ≠ [] := by
      rintro rfl
      exact hksne (List.eq_nil_of_length_eq_zero hlists)
    have hfield : ∀ {field : Text} {ss : List Text}, lookup data field = some (.array (ss.map .string)) → ss ≠ [] →
        (batchField data field).truthy = true ∧ (batchField data field).iter? = some (ss.map .string) := by
      intro field ss hss hssne
      rw [batchField, hss, Option.getD_some]
      exact ⟨by simpa [truthy] using hssne, rfl⟩
    have hk := hfield hks hksne
    have hv := hfield hvs hvsne
    rw [parser, parseBatchPut_eq hk.1 hv.1 hk.2 hv.2, if_neg (by simpa using hlists),
      mapM_ensureBytes (encodedAs_of_texts hkeys), mapM_ensureBytes (encodedAs_of_texts hvalues)]
    rfl
  | readKeyRange startKey endKey =>
    obtain ⟨hstart, hend⟩ := h
    simp only [parser, parseReadKeyRange, truthy_of_fieldKey hstart, truthy_of_fieldKey hend,
      ensureBytes_of_fieldText (fieldText_of_fieldKey hstart), ensureBytes_of_fieldText (fieldText_of_fieldKey hend)]
    rfl

omit [Python] in
/-- A batch that has keys, and as many values, passes `validate`. -/
theorem validate_batchPut {keys values : List Bytes} (hne : keys ≠ []) (hlen : keys.length = values.length) :
    (batchPut keys values).validate = .ok () := by
  have hvaluesne : values ≠ [] := by
    rintro rfl
    exact hne (List.eq_nil_of_length_eq_zero hlen)
  simp only [validate]
  rw [if_neg (by simp [hne, hvaluesne]), if_neg (by simpa using hlen)]
  rfl

omit [Python] in
/-- What the parser accepts passes `validate`. -/
theorem validate_of_fields {data : RequestData} {operation : RequestOperation} (h : operation.Fields data) :
    operation.validate = .ok () := by
  cases operation with
  | put key value => exact if_neg (by simpa using ne_nil_of_fieldKey h.1)
  | get key => exact if_neg (by simpa using ne_nil_of_fieldKey h)
  | delete key => exact if_neg (by simpa using ne_nil_of_fieldKey h)
  | batchPut keys values =>
    obtain ⟨-, -, hne, hlen⟩ := h
    exact validate_batchPut hne hlen
  | readKeyRange startKey endKey =>
    simp only [validate]
    rw [if_neg (by simp [ne_nil_of_fieldKey h.1, ne_nil_of_fieldKey h.2])]
    rfl

omit [Python] in
theorem typeName_ne_nil (operation : RequestOperation) : operation.typeName ≠ [] := by
  cases operation with
  | put => exact (by decide : text "PUT" ≠ [])
  | get => exact (by decide : text "GET" ≠ [])
  | delete => exact (by decide : text "DELETE" ≠ [])
  | batchPut => exact (by decide : text "BATCH_PUT" ≠ [])
  | readKeyRange => exact (by decide : text "READ_KEY_RANGE" ≠ [])

/-- The members of `OperationType` by their names. -/
theorem find_operationTypes (operation : RequestOperation) :
    (operationTypes.find? fun entry => entry.1 = operation.typeName) = some (operation.typeName, operation.parser) := by
  cases operation <;> rfl

/-- Every entry of the dispatch table accepts the fields of the operation that it stands for. -/
theorem yields_entry_fields {entry : Text × (RequestData → Except PyError RequestOperation)}
    (h : entry ∈ operationTypes) {data : RequestData} (hregular : entry.1 = text "BATCH_PUT" → RegularLists data) :
    Yields (fun operation => operation.typeName = entry.1 ∧ operation.Fields data) PyError.IsValueError
      (entry.2 data) := by
  have hname := yields_parse h data
  suffices hfields : Yields (Fields data) PyError.IsValueError (entry.2 data) from
    ⟨fun operation heq => ⟨hname.1 operation heq, hfields.1 operation heq⟩, hfields.2⟩
  simp only [operationTypes, List.mem_cons, List.not_mem_nil, or_false] at h
  rcases h with rfl | rfl | rfl | rfl | rfl
  · exact yields_parsePut_fields data
  · exact yields_parseKey_fields (show getRequiresKey.IsValueError from trivial) fun _ => id
  · exact yields_parseKey_fields (show deleteRequiresKey.IsValueError from trivial) fun _ => id
  · exact yields_parseReadKeyRange_fields data
  · exact yields_parseBatchPut_fields (hregular rfl)

end RequestOperation

/-! ## The requests that are accepted -/

namespace OperationFactory

variable {data : Text} {requestData : RequestData} {name : Text} {operation : RequestOperation}

/-- A request that names a member of `OperationType` goes to its parser. -/
theorem fromJson_eq (hdata : loads data = some (.object requestData))
    (hname : lookup requestData (text "operation") = some (.string name)) (hupper : upper name = operation.typeName) :
    fromJson data = (do
      let parsed ← operation.parser requestData
      parsed.validate
      return parsed) := by
  unfold fromJson
  simp only [hdata, hname, Option.getD_some, hupper, RequestOperation.find_operationTypes]

/-- What is in the grammar is accepted. -/
theorem fromJson_of_grammar (h : Grammar data operation) : fromJson data = .ok operation := by
  obtain ⟨requestData, name, hdata, hname, hupper, hfields⟩ := h
  rw [fromJson_eq hdata hname hupper, RequestOperation.parser_of_fields hfields]
  show (operation.validate >>= fun _ => pure operation) = _
  rw [RequestOperation.validate_of_fields hfields]
  rfl

/-- A regular request is in the grammar, or refused with a `ValueError`. -/
theorem yields_grammar (h : Regular data) : Yields (Grammar data) PyError.IsValueError (fromJson data) := by
  unfold fromJson
  split
  · exact yields_throw trivial
  · next requestData hdata =>
    obtain ⟨_, hobject, hoperation⟩ := h _ hdata
    obtain rfl := Json.object.inj hobject
    cases hlookup : lookup requestData (text "operation") with
    | none => exact yields_throw trivial
    | some value =>
      obtain ⟨name, rfl, hbatch⟩ := hoperation value hlookup
      simp only [Option.getD_some]
      split
      · exact yields_throw trivial
      · next entry hfind =>
        have hentry : entry.1 = upper name := by simpa using List.find?_some hfind
        refine (RequestOperation.yields_entry_fields (List.mem_of_find?_eq_some hfind)
          fun hput => hbatch (hentry.symm.trans hput)).bind fun operation hop => ?_
        rw [RequestOperation.validate_of_fields hop.2]
        exact yields_pure ⟨requestData, name, hdata, hlookup, (hop.1.trans hentry).symm, hop.2⟩
  · next value hnot hdata =>
    obtain ⟨requestData, rfl, -⟩ := h _ hdata
    exact absurd rfl (hnot requestData)

/-- An exception of another kind is never what the grammar asks for. -/
theorem not_other (h : ParsesGrammar data) : ¬∃ message, fromJson data = .error (.other message) := by
  rintro ⟨message, hother⟩
  have hnone : ∀ operation, ¬Grammar data operation := by
    intro operation hgrammar
    rw [fromJson_of_grammar hgrammar] at hother
    cases hother
  obtain ⟨message', hvalue⟩ := h.refuses hnone
  rw [hvalue] at hother
  cases hother

/-- In the grammar the fields of a batch are lists. -/
theorem regularLists_of_parsesGrammar (h : ParsesGrammar data) (hdata : loads data = some (.object requestData))
    (hname : lookup requestData (text "operation") = some (.string name)) (hupper : upper name = text "BATCH_PUT") :
    RegularLists requestData := by
  have hfrom : fromJson data = (do
      let parsed ← RequestOperation.parseBatchPut requestData
      parsed.validate
      return parsed) := @fromJson_eq _ _ _ _ (.batchPut [] []) hdata hname hupper
  intro hkeys hvalues
  have hsized : ¬((batchField requestData (text "keys")).iter? = none ∨
      (batchField requestData (text "values")).iter? = none) := by
    intro hnone
    obtain ⟨message, hother⟩ := RequestOperation.exists_other_of_not_sized hkeys hvalues hnone
    refine not_other h ⟨message, ?_⟩
    rw [hfrom, hother]
    rfl
  rw [not_or, ← ne_eq, ← ne_eq, Option.ne_none_iff_exists', Option.ne_none_iff_exists'] at hsized
  obtain ⟨⟨ks, hks⟩, ⟨vs, hvs⟩⟩ := hsized
  refine ⟨ks, vs, hks, hvs, fun hlen => or_iff_not_imp_right.mpr fun hencodable => ?_⟩
  have hall : ∀ item ∈ ks ++ vs, item.Encodable := by simpa using hencodable
  obtain ⟨keys, hkeys'⟩ :=
    RequestOperation.exists_encodedAs_iff.mpr fun item hitem => hall item (List.mem_append_left _ hitem)
  obtain ⟨values, hvalues'⟩ :=
    RequestOperation.exists_encodedAs_iff.mpr fun item hitem => hall item (List.mem_append_right _ hitem)
  -- everything can be encoded, so the request is accepted and must have lists
  have hok : fromJson data = .ok (.batchPut keys values) := by
    rw [hfrom, RequestOperation.parseBatchPut_eq hkeys hvalues hks hvs, if_neg (not_not.mpr hlen),
      mapM_ensureBytes hkeys', mapM_ensureBytes hvalues']
    show ((RequestOperation.batchPut keys values).validate >>= fun _ => pure _) = _
    have hne : keys ≠ [] := by
      rintro rfl
      exact RequestOperation.ne_nil_of_truthy hkeys hks (List.forall₂_nil_right_iff.mp hkeys')
    rw [RequestOperation.validate_batchPut hne (by rw [← hkeys'.length_eq, ← hvalues'.length_eq, hlen])]
    rfl
  obtain ⟨requestData', name', hdata', -, -, hfields⟩ := (h.accepts _).mp hok
  obtain rfl := Json.object.inj (Option.some.inj (hdata.symm.trans hdata'))
  obtain ⟨⟨ss, hss, -⟩, ⟨ss', hss', -⟩, -⟩ := hfields
  rw [batchField, batchField, hss, hss']
  exact ⟨trivial, trivial⟩

/-- **When `from_json` accepts exactly its grammar**, with a `ValueError` for anything
else. -/
theorem parsesGrammar_iff (data : Text) : ParsesGrammar data ↔ Regular data := by
  constructor
  · intro h j hdata
    have hobject : ∃ requestData, j = .object requestData := by
      cases j with
      | object requestData => exact ⟨requestData, rfl⟩
      | null | bool _ | int _ | float _ _ | nan | infinity _ | string _ | array _ =>
        refine absurd ?_ (not_other h)
        unfold fromJson
        rw [hdata]
        exact ⟨_, rfl⟩
    obtain ⟨requestData, rfl⟩ := hobject
    refine ⟨requestData, rfl, fun value hvalue => ?_⟩
    have hstring : ∃ name, value = .string name := by
      cases value with
      | string name => exact ⟨name, rfl⟩
      | null | bool _ | int _ | float _ _ | nan | infinity _ | array _ | object _ =>
        refine absurd ?_ (not_other h)
        unfold fromJson
        simp only [hdata, hvalue, Option.getD_some]
        exact ⟨_, rfl⟩
    obtain ⟨name, rfl⟩ := hstring
    exact ⟨name, rfl, regularLists_of_parsesGrammar h hdata hvalue⟩
  · intro h
    have hyields := yields_grammar h
    refine ⟨fun operation => ⟨hyields.1 operation, fromJson_of_grammar⟩, fun hnone => ?_⟩
    cases hfrom : fromJson data with
    | ok operation => exact absurd (hyields.1 operation hfrom) (hnone operation)
    | error err =>
      cases err with
      | valueError message => exact ⟨message, rfl⟩
      | _ => exact absurd (hyields.2 _ hfrom) not_false

omit [Python] in
/-- A JSON list is no request, and the exception is no `ValueError`. -/
theorem parsesGrammar_fails : ¬ ∀ data, @ParsesGrammar Python.plain data := by
  intro h
  exact @not_other Python.plain _ (h (text "[]")) ⟨text "'list' object has no attribute 'get'", rfl⟩

/-- An accepted request went through the parser and the validation of its operation. -/
theorem parser_of_fromJson (h : fromJson data = .ok operation) :
    ∃ requestData name, loads data = some (.object requestData) ∧
      lookup requestData (text "operation") = some (.string name) ∧ upper name = operation.typeName ∧
      operation.parser requestData = .ok operation ∧ operation.validate = .ok () := by
  have hinv : ∃ requestData name, loads data = some (.object requestData) ∧
      (lookup requestData (text "operation")).getD (.string []) = .string name := by
    unfold fromJson at h
    split at h
    · cases h
    · next requestData hdata =>
      split at h
      · next name hname => exact ⟨requestData, name, hdata, hname⟩
      · cases h
    · cases h
  obtain ⟨requestData, name, hdata, hname⟩ := hinv
  have htype : operation.typeName = upper name := (yields_fromJson hdata hname).1 operation h
  have hlookup : lookup requestData (text "operation") = some (.string name) := by
    cases hoperation : lookup requestData (text "operation") with
    | none =>
      rw [hoperation] at hname
      obtain rfl := Json.string.inj hname
      exact absurd htype operation.typeName_ne_nil
    | some value =>
      rw [hoperation, Option.getD_some] at hname
      rw [hname]
  refine ⟨requestData, name, hdata, hlookup, htype.symm, ?_⟩
  rw [fromJson_eq hdata hlookup htype.symm] at h
  cases hparsed : operation.parser requestData with
  | error err =>
    rw [hparsed] at h
    cases h
  | ok parsed =>
    rw [hparsed] at h
    change (parsed.validate >>= fun _ => pure parsed) = _ at h
    cases hvalid : parsed.validate with
    | error err =>
      rw [hvalid] at h
      cases h
    | ok =>
      rw [hvalid] at h
      obtain rfl := Except.ok.inj h
      exact ⟨rfl, hvalid⟩

end OperationFactory

end Logvine
