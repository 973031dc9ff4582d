import Logvine.Network.RequestGrammar

/-!
# The keys that requests reach

A `put` request has to have a key that is not empty, and so have the requests for `get`,
`delete` and a range. A batch only has to have keys.

- `accepted_of_fields`: a request whose texts are fields of its operation is accepted;
- `reachable_of_ne_nil`, `ne_nil_of_accepted_get`: the requests that name a key are
  accepted exactly if it is not empty;
- `reachable_iff`: an accepted request writes only such keys exactly if its list of keys
  has no empty text.

`parse` checks `not key` (`operations.py`, 138 and the like), but of a batch only `not keys`
(312), and so does `validate` (271); the engine below checks nothing.
-/

namespace Logvine

open Json

variable [Python]

omit [Python] in
/-- The keys that an operation writes. -/
def RequestOperation.writtenKeys : RequestOperation → List Bytes
  | .put key _ => [key]
  | .batchPut keys _ => keys
  | _ => []

/-- The fields of a request for an operation, as texts, whatever is in them. -/
def RequestOperation.Texts (data : RequestData) : RequestOperation → Prop
  | .put key value => FieldText data (text "key") key ∧ FieldText data (text "value") value
  | .get key => FieldText data (text "key") key
  | .delete key => FieldText data (text "key") key
  | .batchPut keys values => FieldTexts data (text "keys") keys ∧ FieldTexts data (text "values") values
  | .readKeyRange startKey endKey => FieldText data (text "start_key") startKey ∧ FieldText data (text "end_key") endKey

/-- The request text asks for the operation. -/
def Names (data : Text) (operation : RequestOperation) : Prop :=
  ∃ requestData name, loads data = some (.object requestData) ∧
    lookup requestData (text "operation") = some (.string name) ∧ upper name = operation.typeName ∧
    operation.Texts requestData

/-- There are requests for the operation, and all of them are accepted. -/
def Accepted (operation : RequestOperation) : Prop :=
  (∃ data, Names data operation) ∧ ∀ data, Names data operation → OperationFactory.fromJson data = .ok operation

/-- The requests that name the key are accepted, and one for a range with the key in it. -/
structure Reachable (key : Bytes) : Prop where
  get : Accepted (.get key)
  delete : Accepted (.delete key)
  put : ∀ s value, encodeUtf8 s = some value → Accepted (.put key value)
  range : ∃ startKey endKey, Accepted (.readKeyRange startKey endKey) ∧ startKey ≤ key ∧ key < endKey

/-- A batch does not have the empty text among the elements of `keys`. -/
def NoEmptyKey (data : Text) : Prop :=
  ∀ requestData name, loads data = some (.object requestData) →
    lookup requestData (text "operation") = some (.string name) → upper name = text "BATCH_PUT" →
    ∀ ks, (batchField requestData (text "keys")).iter? = some ks → .string [] ∉ ks

namespace OperationFactory

/-! ## The requests that name a key -/

/-- An operation is accepted when some request names it and its texts pass the parser. -/
theorem accepted_of_fields {operation : RequestOperation} (hnames : ∃ data, Names data operation)
    (hfields : ∀ requestData, operation.Texts requestData → operation.Fields requestData) : Accepted operation := by
  refine ⟨hnames, fun data h => ?_⟩
  obtain ⟨requestData, name, hdata, hname, hupper, htexts⟩ := h
  exact fromJson_of_grammar ⟨requestData, name, hdata, hname, hupper, hfields requestData htexts⟩

omit [Python] in
/-- A text whose bytes are not empty is a key. -/
theorem fieldKey_of_fieldText {data : RequestData} {field : Text} {bs : Bytes} (h : FieldText data field bs)
    (hne : bs ≠ []) : FieldKey data field bs := by
  obtain ⟨s, hs, hbs⟩ := h
  exact ⟨s, hs, fun hnil => hne ((encodeUtf8_eq_nil_iff hbs).mpr hnil), hbs⟩

omit [Python] in
/-- The server reads every request of the client as the client meant it. -/
theorem loads_request (call : LogvineClient.Call) : loads (dumps call.request) = some (readBack call.request) := by
  rw [← loads_dumps call.request (show skipBlanks [] = [] from rfl), List.append_nil]

/-- A call of the client writes such a request, if its texts can be encoded. -/
theorem names_request {call : LogvineClient.Call} {requestData : RequestData} {name : Text}
    {operation : RequestOperation} (hread : readBack call.request = .object requestData)
    (hname : lookup requestData (text "operation") = some (.string name)) (hupper : upper name = operation.typeName)
    (htexts : operation.Texts requestData) : Names (dumps call.request) operation :=
  ⟨requestData, name, hread ▸ loads_request call, hname, hupper, htexts⟩

omit [Python] in
/-- Text that can be encoded comes back with the same bytes. -/
theorem encodeUtf8_readBackText {s : Text} {bs : Bytes} (h : encodeUtf8 s = some bs) :
    encodeUtf8 (readBackText s) = some bs := by
  rw [readBackText_of_scalar (scalar_of_encodeUtf8 h), h]

section Key

variable {s : Text} {key : Bytes}

/-- `get` of any key that is not empty and comes from a text. -/
theorem accepted_get (hs : encodeUtf8 s = some key) (hne : key ≠ []) : Accepted (.get key) := by
  refine accepted_of_fields ⟨dumps (LogvineClient.Call.get s).request, ?_⟩ fun _ h => fieldKey_of_fieldText h hne
  exact names_request rfl rfl rfl ⟨_, rfl, encodeUtf8_readBackText hs⟩

/-- `delete` of any such key. -/
theorem accepted_delete (hs : encodeUtf8 s = some key) (hne : key ≠ []) : Accepted (.delete key) := by
  refine accepted_of_fields ⟨dumps (LogvineClient.Call.delete s).request, ?_⟩ fun _ h => fieldKey_of_fieldText h hne
  exact names_request rfl rfl rfl ⟨_, rfl, encodeUtf8_readBackText hs⟩

/-- `put` of any such key, with any value that comes from a text. -/
theorem accepted_put (hs : encodeUtf8 s = some key) (hne : key ≠ []) {t : Text} {value : Bytes}
    (ht : encodeUtf8 t = some value) : Accepted (.put key value) := by
  refine accepted_of_fields ⟨dumps (LogvineClient.Call.put s t).request, ?_⟩
    fun _ h => ⟨fieldKey_of_fieldText h.1 hne, h.2⟩
  exact names_request rfl rfl rfl ⟨⟨_, rfl, encodeUtf8_readBackText hs⟩, _, rfl, encodeUtf8_readBackText ht⟩

/-- A range read between any two such keys. -/
theorem accepted_readKeyRange (hs : encodeUtf8 s = some key) (hne : key ≠ []) {t : Text} {endKey : Bytes}
    (ht : encodeUtf8 t = some endKey) (hend : endKey ≠ []) : Accepted (.readKeyRange key endKey) := by
  refine accepted_of_fields ⟨dumps (LogvineClient.Call.readKeyRange s t).request, ?_⟩
    fun _ h => ⟨fieldKey_of_fieldText h.1 hne, fieldKey_of_fieldText h.2 hend⟩
  exact names_request rfl rfl rfl ⟨⟨_, rfl, encodeUtf8_readBackText hs⟩, _, rfl, encodeUtf8_readBackText ht⟩

omit [Python] in
/-- A key is followed at once by itself with a zero byte. -/
theorem lt_append_zero (key : Bytes) : key < key ++ [0] := by
  induction key with
  | nil => exact List.nil_lt_cons 0 []
  | cons b bs ih => exact List.cons_lt_cons_self.mpr ih

/-- A key that is not empty can be read and deleted; the range ends just behind it. -/
theorem reachable_of_ne_nil (hs : encodeUtf8 s = some key) (hne : key ≠ []) : Reachable key where
  get := accepted_get hs hne
  delete := accepted_delete hs hne
  put _ _ ht := accepted_put hs hne ht
  range := by
    have hend : encodeUtf8 (s ++ [0]) = some (key ++ [0]) := encodeUtf8_append hs rfl
    exact ⟨key, key ++ [0], accepted_readKeyRange hs hne hend (by simp), le_refl key, lt_append_zero key⟩

end Key

/-- The empty key is refused for `get`. -/
theorem ne_nil_of_accepted_get {key : Bytes} (h : Accepted (.get key)) : key ≠ [] := by
  rintro rfl
  obtain ⟨data, hnames⟩ := h.1
  obtain ⟨_, _, -, -, -, -, hvalid⟩ := parser_of_fromJson (h.2 data hnames)
  cases hvalid

/-! ## The keys of an accepted request -/

omit [Python] in
theorem yields_iter_eq (value : Json) :
    Yields (fun items => value.iter? = some items) (fun _ : PyError => True) value.iter := by
  unfold Json.iter
  split
  · next heq => exact yields_pure heq
  · exact yields_throw trivial

omit [Python] in
/-- Every exception is of some kind. -/
theorem yields_any {ε α : Type} {P : α → Prop} {Q : ε → Prop} {x : Except ε α} (h : Yields P Q x) :
    Yields P (fun _ => True) x :=
  ⟨h.1, fun _ _ => trivial⟩

/-- The keys of a batch are the elements of `keys`, encoded. -/
theorem yields_batch_keys (data : RequestData) :
    Yields (fun operation => ∃ ks keys values, (batchField data (text "keys")).iter? = some ks ∧
      List.Forall₂ EncodedAs ks keys ∧ operation = .batchPut keys values) (fun _ => True)
      (RequestOperation.parseBatchPut data) := by
  simp only [RequestOperation.parseBatchPut]
  refine yields_guard trivial ((yields_any (RequestOperation.yields_len _)).bind fun _ _ =>
    (yields_any (RequestOperation.yields_len _)).bind fun _ _ => yields_guard trivial ?_)
  refine (yields_iter_eq _).bind fun ks hks => (yields_any (yields_encodedAs_list ks)).bind fun keys hkeys => ?_
  refine (yields_iter_eq _).bind fun vs _ => (yields_any (yields_encodedAs_list vs)).bind fun values _ => ?_
  exact yields_pure ⟨ks, keys, values, hks, hkeys, rfl⟩

omit [Python] in
/-- A batch has the empty key exactly when its request has the empty text. -/
theorem nil_mem_iff {ks : List Json} {keys : List Bytes} (h : List.Forall₂ EncodedAs ks keys) :
    [] ∈ keys ↔ .string [] ∈ ks := by
  induction h with
  | nil => exact iff_of_false List.not_mem_nil List.not_mem_nil
  | cons hbs _ ih =>
    obtain ⟨s, rfl, hs⟩ := hbs
    rw [List.mem_cons, List.mem_cons, ih]
    refine or_congr_left ?_
    rw [eq_comm, encodeUtf8_eq_nil_iff hs, Json.string.injEq, eq_comm]

omit [Python] in
/-- Every key of a batch comes from a text. -/
theorem exists_encoding {ks : List Json} {keys : List Bytes} (h : List.Forall₂ EncodedAs ks keys) :
    ∀ key ∈ keys, ∃ s, encodeUtf8 s = some key := by
  induction h with
  | nil => exact List.forall_mem_nil _
  | cons hbs _ ih =>
    obtain ⟨s, -, hs⟩ := hbs
    exact List.forall_mem_cons.mpr ⟨⟨s, hs⟩, ih⟩

/-- A request for another operation has no list of keys. -/
theorem noEmptyKey_of_ne {data : Text} {requestData : RequestData} {name : Text}
    (hdata : loads data = some (.object requestData))
    (hname : lookup requestData (text "operation") = some (.string name)) (hupper : upper name ≠ text "BATCH_PUT") :
    NoEmptyKey data := by
  intro requestData' name' hdata' hname' hbatch
  obtain rfl := Json.object.inj (Option.some.inj (hdata.symm.trans hdata'))
  obtain rfl := Json.string.inj (Option.some.inj (hname.symm.trans hname'))
  exact absurd hbatch hupper

/-- **When what a request writes can be reached**: the keys that an accepted request writes
can all be read and deleted, and found by a range read, exactly if no text of its list of
keys is empty. -/
theorem reachable_iff {data : Text} {operation : RequestOperation} (h : fromJson data = .ok operation) :
    (∀ key ∈ operation.writtenKeys, Reachable key) ↔ NoEmptyKey data := by
  obtain ⟨requestData, name, hdata, hname, hupper, hparsed, -⟩ := parser_of_fromJson h
  cases operation with
  | put key value =>
    obtain ⟨⟨s, hs, hne, hkey⟩, -⟩ := (RequestOperation.yields_parsePut_fields requestData).1 _ hparsed
    refine iff_of_true ?_ (noEmptyKey_of_ne hdata hname ?_)
    · exact List.forall_mem_singleton.mpr (reachable_of_ne_nil hkey (encodeUtf8_ne_nil hne hkey))
    · rw [hupper]
      exact (by decide : text "PUT" ≠ text "BATCH_PUT")
  | get key =>
    refine iff_of_true (List.forall_mem_nil _) (noEmptyKey_of_ne hdata hname ?_)
    rw [hupper]
    exact (by decide : text "GET" ≠ text "BATCH_PUT")
  | delete key =>
    refine iff_of_true (List.forall_mem_nil _) (noEmptyKey_of_ne hdata hname ?_)
    rw [hupper]
    exact (by decide : text "DELETE" ≠ text "BATCH_PUT")
  | readKeyRange startKey endKey =>
    refine iff_of_true (List.forall_mem_nil _) (noEmptyKey_of_ne hdata hname ?_)
    rw [hupper]
    exact (by decide : text "READ_KEY_RANGE" ≠ text "BATCH_PUT")
  | batchPut keys values =>
    obtain ⟨ks, keys', values', hks, hkeys, heq⟩ := (yields_batch_keys requestData).1 _ hparsed
    obtain ⟨rfl, rfl⟩ := RequestOperation.batchPut.inj heq
    constructor
    · intro hall requestData' name' hdata' _ _ ks' hks' hempty
      obtain rfl := Json.object.inj (Option.some.inj (hdata.symm.trans hdata'))
      obtain rfl := Option.some.inj (hks.symm.trans hks')
      exact ne_nil_of_accepted_get (hall [] ((nil_mem_iff hkeys).mpr hempty)).get rfl
    · intro hnone key hkey
      obtain ⟨s, hs⟩ := exists_encoding hkeys key hkey
      refine reachable_of_ne_nil hs ?_
      rintro rfl
      exact hnone requestData name hdata hname hupper ks hks ((nil_mem_iff hkeys).mp hkey)

omit [Python] in
/-- A batch with one key. -/
theorem reachable_iff_batch : @Reachable Python.plain [97] := by
  have hall : ∀ key ∈ (RequestOperation.batchPut [[97]] [[49]]).writtenKeys,
      @Reachable Python.plain key := by
    refine (@reachable_iff Python.plain (dumps (LogvineClient.Call.batchPut [text "a"] [text "1"]).request) _
      (by decide +kernel)).mpr ?_
    intro requestData name hdata _ _ ks hks hempty
    obtain rfl := Json.object.inj (Option.some.inj ((loads_request _).symm.trans hdata))
    obtain rfl : [.string (text "a")] = ks := Option.some.inj hks
    exact absurd (Json.string.inj (List.mem_singleton.mp hempty)) (by decide)
  exact hall [97] List.mem_cons_self

omit [Python] in
/-- A batch may have the empty key, which no request for a key may name. -/
theorem reachable_fails :
    ¬ ∀ data operation, @fromJson Python.plain data = .ok operation →
      ∀ key ∈ operation.writtenKeys, @Reachable Python.plain key := by
  intro h
  have hbatch : @fromJson Python.plain (dumps (LogvineClient.Call.batchPut [[]] [text "v"]).request) =
      .ok (.batchPut [[]] [[118]]) := by
    decide +kernel
  have hreachable : @Reachable Python.plain [] := h _ _ hbatch [] List.mem_cons_self
  exact @ne_nil_of_accepted_get Python.plain _ (@Reachable.get Python.plain _ hreachable) rfl

end OperationFactory

end Logvine
