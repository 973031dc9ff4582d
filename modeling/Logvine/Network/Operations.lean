import Logvine.Base.Json
import Logvine.Storage.Engine

/-!
# Requests

A request is a JSON object that names an operation and its fields. The checks on the
fields go by truth value, length and iteration as Python has them, whatever the type.

- `RequestOperation`: the five operations with their fields as bytes;
- `OperationFactory.fromJson`: the operation of a request text, or the exception;
- `RequestOperation.execute`: what an operation does to an engine (`StorageEngine`), which
  is an `LSMStorageEngine` in the program;
- `toResponse`, `toStreamResponse`, `toStreamDone`, `toStreamError`: the documents that
  answer a request;
- `OperationFactory.yields_fromJson`: the operation is of the type that the request names.

The checks of `parse` and `validate` (`operations.py`, 97–102, 122–146 and so on) are made
with `not`, `len` and `for`, which are defined for more than the texts and lists that are
meant; with typed fields the model would refuse requests that the source takes. The text of
any exception goes to the client (`controller.py`, 87–103), so exceptions carry their texts.
-/

namespace Logvine

open Json

/-- The texts of the language and its library that a response may repeat. -/
class Python where
  /-- `str.upper` of a code point outside ASCII. -/
  upper : CodePoint → Text
  /-- `str(e)` of a `JSONDecodeError`, of a `UnicodeEncodeError`, of a `UnicodeDecodeError`. -/
  jsonDecodeError : Text → Text
  unicodeEncodeError : Text → Text
  unicodeDecodeError : Bytes → Text
  /-- `str(e)` of a `KeyError` and of the library's exceptions in the storage modules. -/
  storageError : Error → Text

/-- Some reading of these texts, for runs in which they do not occur. -/
@[reducible]
def Python.plain : Python where
  upper c := [c]
  jsonDecodeError _ := text "Expecting value: line 1 column 1 (char 0)"
  unicodeEncodeError _ := text "'utf-8' codec can't encode character: surrogates not allowed"
  unicodeDecodeError _ := text "'utf-8' codec can't decode byte: invalid start byte"
  storageError _ := []

/-- An exception, as the controller tells them apart, with `str(e)`. -/
inductive PyError where
  | keyError (message : Text)
  | valueError (message : Text)
  | batchTooLarge (message : Text)
  | other (message : Text)
deriving DecidableEq, Repr

/-! ## What a computation can yield -/

/-- Every result of a computation has `P`, and every exception is of a kind `Q`. -/
def Yields {ε α : Type} (P : α → Prop) (Q : ε → Prop) (x : Except ε α) : Prop :=
  (∀ a, x = .ok a → P a) ∧ ∀ err, x = .error err → Q err

/-- A computation that returns at once. -/
theorem yields_pure {ε α : Type} {P : α → Prop} {Q : ε → Prop} {a : α} (h : P a) :
    Yields P Q (pure a : Except ε α) :=
  ⟨fun _ heq => Except.ok.inj heq ▸ h, fun _ heq => (by cases heq)⟩

/-- A computation that raises at once. -/
theorem yields_throw {ε α : Type} {P : α → Prop} {Q : ε → Prop} {err : ε} (h : Q err) :
    Yields P Q (throw err : Except ε α) :=
  ⟨fun _ heq => (by cases heq), fun _ heq => Except.error.inj heq ▸ h⟩

/-- What holds of the result of one computation is what the next one may rely on. -/
theorem Yields.bind {ε α β : Type} {P : α → Prop} {R : β → Prop} {Q : ε → Prop} {x : Except ε α}
    {f : α → Except ε β} (hx : Yields P Q x) (hf : ∀ a, P a → Yields R Q (f a)) : Yields R Q (x >>= f) := by
  cases x with
  | error err => exact yields_throw (hx.2 err rfl)
  | ok a => exact hf a (hx.1 a rfl)

/-- A check that raises; behind it the condition does not hold. -/
theorem yields_check {ε α : Type} {P : α → Prop} {Q : ε → Prop} {c : Prop} [Decidable c] {err : ε}
    {f : PUnit → Except ε α} {x : Except ε α} (herr : Q err) (hx : ¬c → Yields P Q x) :
    Yields P Q (if c then throw err >>= f else x) := by
  split
  · exact yields_throw herr
  · next hc => exact hx hc

/-- A check in front of a computation. -/
theorem yields_guard {ε α : Type} {P : α → Prop} {Q : ε → Prop} {c : Prop} [Decidable c] {err : ε}
    {f : PUnit → Except ε α} {x : Except ε α} (herr : Q err) (hx : Yields P Q x) :
    Yields P Q (if c then throw err >>= f else x) :=
  yields_check herr fun _ => hx

/-- An exception other than a `KeyError`. -/
def PyError.NotKeyError : PyError → Prop
  | .keyError _ => False
  | .valueError _ | .batchTooLarge _ | .other _ => True

/-! ## Values as Python sees them -/

namespace Json

/-- `type(value).__name__`. -/
def typeName : Json → Text
  | .null => text "NoneType"
  | .bool _ => text "bool"
  | .int _ => text "int"
  | .float _ _ | .nan | .infinity _ => text "float"
  | .string _ => text "str"
  | .array _ => text "list"
  | .object _ => text "dict"

/-- A decimal number that is rounded to zero: at most half of the least float. -/
def roundsToZero (mantissa exponent : Int) : Bool :=
  if 0 ≤ exponent then mantissa = 0 else mantissa.natAbs * 2 ^ 1075 ≤ 10 ^ (-exponent).toNat

/-- `bool(value)`. -/
def truthy : Json → Bool
  | .null => false
  | .bool b => b
  | .int n => n ≠ 0
  | .float mantissa exponent => !roundsToZero mantissa exponent
  | .nan | .infinity _ => true
  | .string s => !s.isEmpty
  | .array items => !items.isEmpty
  | .object entries => !entries.isEmpty

/-- The elements that iterating yields; a string yields its characters and a dictionary
its keys. -/
def iter? : Json → Option (List Json)
  | .string s => some (s.map fun c => .string [c])
  | .array items => some items
  | .object entries => some ((entries.map Prod.fst).eraseDups.map .string)
  | .null | .bool _ | .int _ | .float _ _ | .nan | .infinity _ => none

/-- `len(value)`. -/
def len (j : Json) : Except PyError Nat :=
  match j.iter? with
  | some items => .ok items.length
  | none => .error (.other (text "object of type '" ++ j.typeName ++ text "' has no len()"))

/-- `list(value)`. -/
def iter (j : Json) : Except PyError (List Json) :=
  match j.iter? with
  | some items => .ok items
  | none => .error (.other (text "'" ++ j.typeName ++ text "' object is not iterable"))

end Json

/-- The entries of the request object. -/
abbrev RequestData := List (Text × Json)

/-- `data.get(key)`, which is `None` if there is no such key. -/
def RequestData.get (data : RequestData) (key : Text) : Json := (lookup data key).getD .null

variable [Python]

/-- `str.upper`. -/
def upper (s : Text) : Text :=
  s.flatMap fun c =>
    if 97 ≤ c.val ∧ c.val ≤ 122 then [.ofNat _ (c.val - 32)] else if c.val < 128 then [c] else Python.upper c

/-- `_ensure_bytes`, of a value from a request. -/
def ensureBytes (value : Json) : Except PyError Bytes :=
  match value with
  | .string s =>
    match encodeUtf8 s with
    | some bs => .ok bs
    | none => .error (.valueError (Python.unicodeEncodeError s))
  | _ => .error (.valueError (text "Expected str or bytes, got " ++ value.typeName))

/-! ## The operations -/

/-- An operation with its fields. -/
inductive RequestOperation where
  | put (key value : Bytes)
  | get (key : Bytes)
  | delete (key : Bytes)
  | batchPut (keys values : List Bytes)
  | readKeyRange (startKey endKey : Bytes)
deriving DecidableEq, Repr

namespace RequestOperation

def putRequiresKey : PyError := .valueError (text "PUT requires 'key'")
def putRequiresValue : PyError := .valueError (text "PUT requires 'value'")
def getRequiresKey : PyError := .valueError (text "GET requires 'key'")
def deleteRequiresKey : PyError := .valueError (text "DELETE requires 'key'")
def batchPutRequires : PyError := .valueError (text "BATCH_PUT requires 'keys' and 'values'")
def batchPutLengths : PyError := .valueError (text "BATCH_PUT: 'keys' and 'values' must have same length")
def readKeyRangeRequires : PyError := .valueError (text "READ_KEY_RANGE requires 'start_key' and 'end_key'")

/-- `PutOperation.parse`. -/
def parsePut (data : RequestData) : Except PyError RequestOperation := do
  let key := data.get (text "key")
  let value := data.get (text "value")
  if !key.truthy then throw putRequiresKey
  if value matches .null then throw putRequiresValue
  let key ← ensureBytes key
  let value ← ensureBytes value
  return .put key value

/-- The parsers of the operations that have one key. -/
def parseKey (required : PyError) (operation : Bytes → RequestOperation) (data : RequestData) :
    Except PyError RequestOperation := do
  let key := data.get (text "key")
  if !key.truthy then throw required
  let key ← ensureBytes key
  return operation key

/-- `GetOperation.parse`. -/
def parseGet (data : RequestData) : Except PyError RequestOperation := parseKey getRequiresKey .get data

/-- `DeleteOperation.parse`. -/
def parseDelete (data : RequestData) : Except PyError RequestOperation := parseKey deleteRequiresKey .delete data

/-- `BatchPutOperation.parse`; a missing list is an empty one. -/
def parseBatchPut (data : RequestData) : Except PyError RequestOperation := do
  let keys := (lookup data (text "keys")).getD (.array [])
  let values := (lookup data (text "values")).getD (.array [])
  if !keys.truthy || !values.truthy then throw batchPutRequires
  if (← keys.len) ≠ (← values.len) then throw batchPutLengths
  let keys ← (← keys.iter).mapM ensureBytes
  let values ← (← values.iter).mapM ensureBytes
  return .batchPut keys values

/-- `ReadKeyRangeOperation.parse`. -/
def parseReadKeyRange (data : RequestData) : Except PyError RequestOperation := do
  let startKey := data.get (text "start_key")
  let endKey := data.get (text "end_key")
  if !startKey.truthy || !endKey.truthy then throw readKeyRangeRequires
  let startKey ← ensureBytes startKey
  let endKey ← ensureBytes endKey
  return .readKeyRange startKey endKey

/-- `validate`. -/
def validate : RequestOperation → Except PyError Unit
  | .put key _ => if key.isEmpty then throw putRequiresKey else return
  | .get key => if key.isEmpty then throw getRequiresKey else return
  | .delete key => if key.isEmpty then throw deleteRequiresKey else return
  | .batchPut keys values =>
    if keys.isEmpty || values.isEmpty then throw batchPutRequires
    else if keys.length ≠ values.length then throw batchPutLengths
    else return
  | .readKeyRange startKey endKey => if startKey.isEmpty || endKey.isEmpty then throw readKeyRangeRequires else return

/-- The members of `OperationType` with the parsers of their classes. -/
def operationTypes : List (Text × (RequestData → Except PyError RequestOperation)) :=
  [(text "PUT", parsePut), (text "GET", parseGet), (text "DELETE", parseDelete),
    (text "READ_KEY_RANGE", parseReadKeyRange), (text "BATCH_PUT", parseBatchPut)]

end RequestOperation

/-- `OperationFactory.from_json`. -/
def OperationFactory.fromJson (data : Text) : Except PyError RequestOperation :=
  match loads data with
  | none => .error (.valueError (text "Invalid JSON in request: " ++ Python.jsonDecodeError data))
  | some (.object requestData) =>
    match (lookup requestData (text "operation")).getD (.string []) with
    | .string name =>
      match RequestOperation.operationTypes.find? fun entry => entry.1 = upper name with
      | none => .error (.valueError (text "Unknown operation: " ++ upper name))
      | some entry => do
        let operation ← entry.2 requestData
        operation.validate
        return operation
    | value => .error (.other (text "'" ++ value.typeName ++ text "' object has no attribute 'upper'"))
  | some value => .error (.other (text "'" ++ value.typeName ++ text "' object has no attribute 'get'"))

/-! ## Execution -/

/-- What the operations need of an engine; a range read yields pairs and may end with an
exception. -/
class StorageEngine (E : Type) where
  put : E → Bytes → Bytes → E × Except PyError Unit
  get : E → Bytes → Except PyError Bytes
  delete : E → Bytes → E × Except PyError Unit
  readKeyRange : E → Bytes → Bytes → List (Bytes × Bytes) × Option PyError
  batchPut : E → List Bytes → List Bytes → E × Except PyError Unit

/-- An exception of the storage modules. -/
def PyError.ofError : Error → PyError
  | .keyError key => .keyError (Python.storageError (.keyError key))
  | .valueError message => .valueError (text message)
  | .batchTooLarge batchBytes maxBytes =>
    .batchTooLarge (text "Input batch (" ++ signedDecimal batchBytes ++ text " bytes) exceeds maximum allowed (" ++
      signedDecimal maxBytes ++ text " bytes). Consider splitting into multiple requests.")
  | err => .other (Python.storageError err)

instance {L : Type} [Log L] : StorageEngine (LSMStorageEngine L) where
  put e key value := (e.put key value).map id (·.mapError .ofError)
  get e key := (e.get key).mapError .ofError
  delete e key := (e.delete key).map id (·.mapError .ofError)
  readKeyRange e startKey endKey :=
    match e.readKeyRange startKey endKey with
    | .ok items => (items, none)
    | .error err => ([], some (.ofError err))
  batchPut e keys values := (e.batchPut keys values).map id (·.mapError .ofError)

/-- What `execute` returns. -/
inductive Result where
  | text (s : Text)
  | bytes (bs : Bytes)
  | iterator (items : List (Bytes × Bytes)) (raises : Option PyError)

namespace RequestOperation

/-- `execute`. -/
def execute {E : Type} [StorageEngine E] (e : E) : RequestOperation → E × Except PyError Result
  | .put key value => (StorageEngine.put e key value).map id (·.map fun _ => .text (Logvine.text "OK"))
  | .get key => (e, (StorageEngine.get e key).map .bytes)
  | .delete key => (StorageEngine.delete e key).map id (·.map fun _ => .text (Logvine.text "OK"))
  | .batchPut keys values =>
    (StorageEngine.batchPut e keys values).map id
      (·.map fun _ => .text (Logvine.text "OK (" ++ decimal keys.length ++ Logvine.text " items)"))
  | .readKeyRange startKey endKey =>
    let result := StorageEngine.readKeyRange e startKey endKey
    (e, .ok (.iterator result.1 result.2))

/-! ## Responses -/

/-- The entries that every response to an operation begins with. -/
def responseHead : RequestOperation → List (Text × Json)
  | .put key _ => [(text "operation", .string (text "put")), (text "key", .string (decodeUtf8Lossy key))]
  | .get key => [(text "operation", .string (text "get")), (text "key", .string (decodeUtf8Lossy key))]
  | .delete key => [(text "operation", .string (text "delete")), (text "key", .string (decodeUtf8Lossy key))]
  | .batchPut keys _ => [(text "operation", .string (text "batch_put")), (text "count", .int keys.length)]
  | .readKeyRange startKey endKey =>
    [(text "operation", .string (text "read_key_range")), (text "start_key", .string (decodeUtf8Lossy startKey)),
      (text "end_key", .string (decodeUtf8Lossy endKey))]

/-- `to_response` with a result that is no iterator. -/
def toResponse (operation : RequestOperation) (result : Text) : Json :=
  .object (operation.responseHead ++ [(text "success", .bool true), (text "value", .string result)])

/-- `to_response` with an error. -/
def toErrorResponse (operation : RequestOperation) (error : Text) : Json :=
  .object (operation.responseHead ++ [(text "error", .string error)])

/-- `to_stream_response`. -/
def toStreamResponse (operation : RequestOperation) (items : List (Text × Text)) (chunkId : Nat) : Json :=
  .object (operation.responseHead ++
    [(text "status", .string (text "ok")), (text "stream_status", .string (text "in_progress")),
      (text "chunk_id", .int chunkId),
      (text "items", .array (items.map fun item => .array [.string item.1, .string item.2]))])

/-- `to_stream_done`. -/
def toStreamDone (operation : RequestOperation) : Json :=
  .object (operation.responseHead ++
    [(text "status", .string (text "ok")), (text "stream_status", .string (text "done"))])

/-- `to_stream_error`. -/
def toStreamError (operation : RequestOperation) (error : Text) : Json :=
  .object (operation.responseHead ++
    [(text "error", .string error), (text "stream_status", .string (text "terminated"))])

end RequestOperation

/-! ## What a request can yield -/

namespace RequestOperation

/-- The member of `OperationType` an operation belongs to. -/
def typeName : RequestOperation → Text
  | .put _ _ => text "PUT"
  | .get _ => text "GET"
  | .delete _ => text "DELETE"
  | .batchPut _ _ => text "BATCH_PUT"
  | .readKeyRange _ _ => text "READ_KEY_RANGE"

/-- `_ensure_bytes` raises nothing that a client would take for a missing key. -/
theorem yields_ensureBytes (value : Json) : Yields (fun _ => True) PyError.NotKeyError (ensureBytes value) := by
  unfold ensureBytes
  split
  · split
    · exact yields_pure trivial
    · exact yields_throw trivial
  · exact yields_throw trivial

omit [Python] in
/-- `len` of a value from a request raises no `KeyError`. -/
theorem yields_len (value : Json) : Yields (fun _ => True) PyError.NotKeyError value.len := by
  unfold Json.len
  split
  · exact yields_pure trivial
  · exact yields_throw trivial

omit [Python] in
theorem yields_iter (value : Json) : Yields (fun _ => True) PyError.NotKeyError value.iter := by
  unfold Json.iter
  split
  · exact yields_pure trivial
  · exact yields_throw trivial

theorem yields_ensureBytes_list (values : List Json) :
    Yields (fun _ => True) PyError.NotKeyError (values.mapM ensureBytes) := by
  induction values with
  | nil => exact yields_pure trivial
  | cons value values ih =>
    rw [List.mapM_cons]
    exact (yields_ensureBytes value).bind fun _ _ => ih.bind fun _ _ => yields_pure trivial

/-- A request for `put` that is parsed becomes a `put`. -/
theorem yields_parsePut (data : RequestData) :
    Yields (fun operation => typeName operation = text "PUT") PyError.NotKeyError (parsePut data) := by
  simp only [parsePut]
  refine yields_guard trivial (yields_guard trivial ?_)
  exact (yields_ensureBytes _).bind fun key _ => (yields_ensureBytes _).bind fun value _ => yields_pure rfl

/-- A request with one key that is parsed becomes the operation it was parsed for. -/
theorem yields_parseKey {required : PyError} (hrequired : required.NotKeyError)
    (operation : Bytes → RequestOperation) {name : Text} (hname : ∀ key, (operation key).typeName = name)
    (data : RequestData) :
    Yields (fun operation => typeName operation = name) PyError.NotKeyError (parseKey required operation data) := by
  simp only [parseKey]
  exact yields_guard hrequired ((yields_ensureBytes _).bind fun key _ => yields_pure (hname key))

/-- A request for `batch_put` that is parsed becomes a `batch_put`. -/
theorem yields_parseBatchPut (data : RequestData) :
    Yields (fun operation => typeName operation = text "BATCH_PUT") PyError.NotKeyError (parseBatchPut data) := by
  simp only [parseBatchPut]
  refine yields_guard trivial ((yields_len _).bind fun _ _ => (yields_len _).bind fun _ _ => yields_guard trivial ?_)
  refine (yields_iter _).bind fun keys _ => (yields_ensureBytes_list keys).bind fun keys _ => ?_
  refine (yields_iter _).bind fun values _ => (yields_ensureBytes_list values).bind fun values _ => ?_
  exact yields_pure rfl

/-- A request for a range that is parsed becomes a range read. -/
theorem yields_parseReadKeyRange (data : RequestData) :
    Yields (fun operation => typeName operation = text "READ_KEY_RANGE") PyError.NotKeyError
      (parseReadKeyRange data) := by
  simp only [parseReadKeyRange]
  refine yields_guard trivial ?_
  exact (yields_ensureBytes _).bind fun key _ => (yields_ensureBytes _).bind fun value _ => yields_pure rfl

/-- The parser of a member of `OperationType` gives an operation of that member. -/
theorem yields_parse {entry : Text × (RequestData → Except PyError RequestOperation)}
    (h : entry ∈ operationTypes) (data : RequestData) :
    Yields (fun operation => typeName operation = entry.1) PyError.NotKeyError (entry.2 data) := by
  simp only [operationTypes, List.mem_cons, List.not_mem_nil, or_false] at h
  rcases h with rfl | rfl | rfl | rfl | rfl
  · exact yields_parsePut data
  · exact yields_parseKey (show getRequiresKey.NotKeyError from trivial) .get (fun _ => rfl) data
  · exact yields_parseKey (show deleteRequiresKey.NotKeyError from trivial) .delete (fun _ => rfl) data
  · exact yields_parseReadKeyRange data
  · exact yields_parseBatchPut data

omit [Python] in
/-- No check of an operation raises a `KeyError`. -/
theorem yields_validate (operation : RequestOperation) :
    Yields (fun _ => True) PyError.NotKeyError operation.validate := by
  cases operation <;> simp only [validate] <;> repeat' split
  all_goals first | exact yields_pure trivial | exact yields_throw trivial

end RequestOperation

/-- The requested operation is of the type that the request names, and no `KeyError` is
raised. -/
theorem OperationFactory.yields_fromJson {data : Text} {requestData : RequestData} {name : Text}
    (hdata : loads data = some (.object requestData))
    (hname : (lookup requestData (text "operation")).getD (.string []) = .string name) :
    Yields (fun operation => operation.typeName = upper name) PyError.NotKeyError (fromJson data) := by
  unfold fromJson
  simp only [hdata, hname]
  split
  · exact yields_throw trivial
  · next entry hfind =>
    have hentry : entry.1 = upper name := by simpa using List.find?_some hfind
    refine (RequestOperation.yields_parse (List.mem_of_find?_eq_some hfind) requestData).bind fun operation hop => ?_
    exact (RequestOperation.yields_validate operation).bind fun _ _ => yields_pure (hop.trans hentry)

/-- No request text makes `from_json` raise a `KeyError`. -/
theorem OperationFactory.fromJson_ne_keyError (data message : Text) : fromJson data ≠ .error (.keyError message) := by
  intro heq
  unfold fromJson at heq
  split at heq
  · cases heq
  · next requestData hdata =>
    split at heq
    · next name hname =>
      have hyields := yields_fromJson hdata hname
      unfold fromJson at hyields
      simp only [hdata, hname] at hyields
      exact hyields.2 _ heq
    · cases heq
  · cases heq

end Logvine
