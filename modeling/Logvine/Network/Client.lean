import Logvine.Network.Controller

/-!
# The client

The requests that the calls of a client write, and what it does with a line it reads.

- `Call`: a call with its arguments, and the document of its request;
- `sendResponse`: what a call with one response makes of it;
- `sendResponse_respond`: such a call returns exactly if its operation did;
- `rangeStep`, `readKeyRange`: a range read, message after message;
- `answer_single`, `answer_range`: what the server writes for the request of a call.

The source is `client.py`, 39–122. A response carries nothing that says which request it
answers, so a call takes the next line for its own (55 and 105).
-/

namespace Logvine

open Json

/-- An exception that a call raises. -/
inductive ClientError where
  | runtimeError (argument : Json)
  | lineTooLong
  | unicodeDecodeError (line : Bytes)
  | jsonDecodeError (line : Text)
  | attributeError (value : Json)
  | typeError (value : Json)
  | unpackError (item : Json)

namespace LogvineClient

/-! ## Requests -/

/-- A call of the client. -/
inductive Call where
  | put (key value : Text)
  | get (key : Text)
  | delete (key : Text)
  | batchPut (keys values : List Text)
  | readKeyRange (startKey endKey : Text)
deriving DecidableEq, Repr

namespace Call

/-- The document of the request. -/
def request : Call → Json
  | .put key value =>
    .object [(text "operation", .string (text "put")), (text "key", .string key), (text "value", .string value)]
  | .get key => .object [(text "operation", .string (text "get")), (text "key", .string key)]
  | .delete key => .object [(text "operation", .string (text "delete")), (text "key", .string key)]
  | .batchPut keys values =>
    .object [(text "operation", .string (text "batch_put")), (text "keys", .array (keys.map .string)),
      (text "values", .array (values.map .string))]
  | .readKeyRange startKey endKey =>
    .object [(text "operation", .string (text "read_key_range")), (text "start_key", .string startKey),
      (text "end_key", .string endKey)]

/-- A range read has a stream of responses, any other call has one. -/
def IsRange : Call → Prop
  | .readKeyRange _ _ => True
  | .put _ _ | .get _ | .delete _ | .batchPut _ _ => False

instance (call : Call) : Decidable call.IsRange := by
  cases call <;> unfold IsRange <;> infer_instance

/-- `batch_put` raises a `ValueError` before it writes anything. -/
def Raises : Call → Prop
  | .batchPut keys values => keys.length ≠ values.length
  | .put _ _ | .get _ | .delete _ | .readKeyRange _ _ => False

instance (call : Call) : Decidable call.Raises := by
  cases call <;> unfold Raises <;> infer_instance

end Call

/-! ## Responses -/

/-- `_read_json_line`, of a line that was read. -/
def readJsonLine (line : Bytes) : Except ClientError Json :=
  match decodeUtf8 line with
  | none => .error (.unicodeDecodeError line)
  | some s =>
    match loads s with
    | none => .error (.jsonDecodeError s)
    | some j => .ok j

/-- `response.get(key) == value`, for a text. -/
def hasText (response : RequestData) (key value : Text) : Bool :=
  match response.get key with
  | .string s => s = value
  | _ => false

/-- `RuntimeError(response.get("error", default))`. -/
def errorOf (response : RequestData) (default : Text) : ClientError :=
  .runtimeError ((lookup response (text "error")).getD (.string default))

/-- What `_send_request` makes of the response. -/
def sendResponse : Json → Except ClientError RequestData
  | .object response =>
    if hasText response (text "status") (text "error") || (lookup response (text "error")).isSome then
      .error (errorOf response (text "Unknown error"))
    else .ok response
  | value => .error (.attributeError value)

/-- What a call with one response returns. -/
def returned (call : Call) (response : RequestData) : Json :=
  match call with
  | .get _ => response.get (text "value")
  | _ => (lookup response (text "success")).getD (.bool false)

/-- A message to `read_key_range`: the end, an exception, or pairs to yield. -/
inductive RangeStep where
  | done
  | raises (err : ClientError)
  | items (items : List Json)

/-- The body of the loop of `read_key_range`, up to the pairs. -/
def rangeStep : Json → RangeStep
  | .object msg =>
    if hasText msg (text "stream_status") (text "done") then .done
    else if hasText msg (text "stream_status") (text "terminated") || hasText msg (text "status") (text "error") then
      .raises (errorOf msg (text "Stream error"))
    else
      let items := (lookup msg (text "items")).getD (.array [])
      match items.iter? with
      | some items => .items items
      | none => .raises (.typeError items)
  | value => .raises (.attributeError value)

/-- `for k, v in …`, one item. -/
def unpack (item : Json) : Except ClientError (Json × Json) :=
  match item.iter? with
  | some [k, v] => .ok (k, v)
  | _ => .error (.unpackError item)

/-- The pairs of a message, up to the first item that is no pair. -/
def unpackItems : List Json → List (Json × Json) × Option ClientError
  | [] => ([], none)
  | item :: items =>
    match unpack item with
    | .ok pair => ((unpackItems items).map (pair :: ·) id)
    | .error err => ([], some err)

/-- How a range read ends; it waits if no line is left. -/
inductive RangeEnd where
  | finished
  | raised (err : ClientError)
  | waiting

/-- `read_key_range`, read to its end: the pairs it yields for the lines it reads, where
`none` is a line that is too long. -/
def readKeyRange : List (Option Bytes) → List (Json × Json) × RangeEnd
  | [] => ([], .waiting)
  | none :: _ => ([], .raised .lineTooLong)
  | some line :: lines =>
    match readJsonLine line with
    | .error err => ([], .raised err)
    | .ok msg =>
      match rangeStep msg with
      | .done => ([], .finished)
      | .raises err => ([], .raised err)
      | .items items =>
        match unpackItems items with
        | (pairs, some err) => (pairs, .raised err)
        | (pairs, none) => (readKeyRange lines).map (pairs ++ ·) id

/-! ## Lines as the other side reads them -/

/-- A line that the server wrote is read as its value. -/
theorem readJsonLine_jsonLine (j : Json) : readJsonLine (jsonLine j) = .ok (readBack j) := by
  rw [readJsonLine, decodeUtf8_jsonLine]
  simp only
  rw [loads_dumps j (by decide)]

/-! ## What the messages of a range read say -/

variable (startKey endKey : Bytes)

/-- The last line of a range read ends the loop. -/
theorem rangeStep_done : rangeStep (readBack (RequestOperation.toStreamDone (.readKeyRange startKey endKey))) = .done :=
  rfl

/-- A line with an error raises it in the reader. -/
theorem rangeStep_error (error : Text) :
    rangeStep (readBack (RequestOperation.toStreamError (.readKeyRange startKey endKey) error)) =
      .raises (.runtimeError (.string (readBackText error))) :=
  rfl

/-- A chunk gives its items. -/
theorem rangeStep_chunk (items : List (Text × Text)) (chunkId : Nat) :
    rangeStep (readBack (RequestOperation.toStreamResponse (.readKeyRange startKey endKey) items chunkId)) =
      .items (readBackItems (items.map fun item => .array [.string item.1, .string item.2])) :=
  rfl

/-- A refusal raises too. -/
theorem rangeStep_errorResponse (err : PyError) :
    ∃ argument, rangeStep (readBack (Controller.errorResponse err)) = .raises (.runtimeError argument) := by
  cases err <;> exact ⟨_, rfl⟩

/-- The pairs that a message yields. -/
def yielded (items : List (Text × Text)) : List (Json × Json) :=
  items.map fun item => (.string (readBackText item.1), .string (readBackText item.2))

theorem unpack_pair (item : Text × Text) :
    unpack (readBack (.array [.string item.1, .string item.2])) =
      .ok (.string (readBackText item.1), .string (readBackText item.2)) :=
  rfl

/-- The items of a chunk are all pairs, so none of them raises. -/
theorem unpackItems_pairs (items : List (Text × Text)) :
    unpackItems (readBackItems (items.map fun item => .array [.string item.1, .string item.2])) =
      (yielded items, none) := by
  induction items with
  | nil => rfl
  | cons item items ih =>
    rw [List.map_cons, readBackItems, unpackItems, unpack_pair]
    simp only [ih]
    rfl

/-- One chunk: its items come before those of the lines behind it. -/
theorem readKeyRange_chunk (items : List (Text × Text)) (chunkId : Nat) (lines : List (Option Bytes)) :
    readKeyRange
        (some (jsonLine (RequestOperation.toStreamResponse (.readKeyRange startKey endKey) items chunkId)) :: lines) =
      (readKeyRange lines).map (yielded items ++ ·) id := by
  rw [readKeyRange]
  simp only [readJsonLine_jsonLine, rangeStep_chunk, unpackItems_pairs]

/-- The last line: the generator is finished, and reads no further. -/
theorem readKeyRange_done (lines : List (Option Bytes)) :
    readKeyRange (some (jsonLine (RequestOperation.toStreamDone (.readKeyRange startKey endKey))) :: lines) =
      ([], .finished) := by
  rw [readKeyRange]
  simp only [readJsonLine_jsonLine, rangeStep_done]

/-! ## What a call makes of its response -/

/-- Any other call raises what the server refused with. -/
theorem sendResponse_errorResponse (err : PyError) :
    ∃ argument, sendResponse (readBack (Controller.errorResponse err)) = .error (.runtimeError argument) := by
  cases err <;> exact ⟨_, rfl⟩

/-- And what the server failed with. -/
theorem sendResponse_toErrorResponse (operation : RequestOperation) (error : Text) :
    sendResponse (readBack (operation.toErrorResponse error)) =
      .error (.runtimeError (.string (readBackText error))) := by
  cases operation <;> rfl

/-- The result of an operation: a `get` returns it, another call that there is one. -/
theorem sendResponse_toResponse (operation : RequestOperation) (result : Text) :
    ∃ response, sendResponse (readBack (operation.toResponse result)) = .ok response ∧
      (∀ key, returned (.get key) response = .string (readBackText result)) ∧
      ∀ call, (∀ key, call ≠ .get key) → returned call response = .bool true := by
  have htrue : ∀ response : RequestData, lookup response (text "success") = some (.bool true) →
      ∀ call, (∀ key, call ≠ .get key) → returned call response = .bool true := by
    intro response hsuccess call hcall
    cases call with
    | get key => exact absurd rfl (hcall key)
    | put _ _ | delete _ | batchPut _ _ | readKeyRange _ _ =>
      exact congrArg (fun success : Option Json => success.getD (.bool false)) hsuccess
  cases operation <;> exact ⟨_, rfl, fun _ => rfl, htrue _ rfl⟩

/-! ## What the server answers -/

/-- The name of the operation in the request. -/
def Call.name : Call → Text
  | .put _ _ => text "put"
  | .get _ => text "get"
  | .delete _ => text "delete"
  | .batchPut _ _ => text "batch_put"
  | .readKeyRange _ _ => text "read_key_range"

/-- A request is an object, which the server reads back with the same operation. -/
theorem exists_requestData (call : Call) :
    ∃ entries requestData, call.request = .object entries ∧ readBack call.request = .object requestData ∧
      lookup requestData (text "operation") = some (.string call.name) := by
  cases call <;> exact ⟨_, _, rfl, rfl, rfl⟩

variable [Python]

/-- The operation that the server makes of a request is the one that was called. -/
theorem yields_request (call : Call) :
    Yields (fun operation => operation.typeName = upper call.name) PyError.NotKeyError
      (OperationFactory.fromJson (dumps call.request)) := by
  obtain ⟨_, requestData, -, hread, hname⟩ := exists_requestData call
  have hloads : loads (dumps call.request) = some (.object requestData) := by
    rw [← hread, ← loads_dumps call.request (show skipBlanks [] = [] from rfl), List.append_nil]
  refine OperationFactory.yields_fromJson hloads ?_
  rw [hname, Option.getD_some]

/-- The server compares the name of the operation in upper case. -/
theorem isRange_iff_upper (call : Call) : call.IsRange ↔ upper call.name = text "READ_KEY_RANGE" := by
  have hput : upper (text "put") = text "PUT" := rfl
  have hget : upper (text "get") = text "GET" := rfl
  have hdelete : upper (text "delete") = text "DELETE" := rfl
  have hbatchPut : upper (text "batch_put") = text "BATCH_PUT" := rfl
  have hrange : upper (text "read_key_range") = text "READ_KEY_RANGE" := rfl
  cases call with
  | put key value => exact iff_of_false id (by rw [Call.name, hput]; decide)
  | get key => exact iff_of_false id (by rw [Call.name, hget]; decide)
  | delete key => exact iff_of_false id (by rw [Call.name, hdelete]; decide)
  | batchPut keys values => exact iff_of_false id (by rw [Call.name, hbatchPut]; decide)
  | readKeyRange startKey endKey => exact iff_of_true trivial hrange

omit [Python] in
theorem exists_range_of_typeName {operation : RequestOperation}
    (h : operation.typeName = text "READ_KEY_RANGE") : ∃ startKey endKey, operation = .readKeyRange startKey endKey := by
  cases operation with
  | put key value => exact absurd h (by decide : text "PUT" ≠ text "READ_KEY_RANGE")
  | get key => exact absurd h (by decide : text "GET" ≠ text "READ_KEY_RANGE")
  | delete key => exact absurd h (by decide : text "DELETE" ≠ text "READ_KEY_RANGE")
  | batchPut keys values => exact absurd h (by decide : text "BATCH_PUT" ≠ text "READ_KEY_RANGE")
  | readKeyRange startKey endKey => exact ⟨startKey, endKey, rfl⟩

variable {E : Type} [StorageEngine E]

/-- **A call returns exactly if its operation did**, and raises what went wrong otherwise. -/
theorem sendResponse_respond (operation : RequestOperation) {r : Except PyError Result}
    (h : ∀ items raises, r ≠ .ok (.iterator items raises)) :
    ∃ doc, Controller.respond operation r = [doc] ∧
      ((∃ result response, r = .ok result ∧ sendResponse (readBack doc) = .ok response) ∨
        ∃ err argument, r = .error err ∧ sendResponse (readBack doc) = .error (.runtimeError argument)) := by
  cases r with
  | error err =>
    cases err with
    | keyError message => exact ⟨_, rfl, .inr ⟨_, _, rfl, sendResponse_toErrorResponse operation _⟩⟩
    | valueError _ | batchTooLarge _ | other _ =>
      obtain ⟨argument, hraised⟩ := sendResponse_errorResponse _
      exact ⟨_, rfl, .inr ⟨_, argument, rfl, hraised⟩⟩
  | ok result =>
    cases result with
    | text s =>
      obtain ⟨response, hresponse, -⟩ := sendResponse_toResponse operation s
      exact ⟨_, rfl, .inl ⟨_, response, rfl, hresponse⟩⟩
    | bytes bs =>
      obtain ⟨response, hresponse, -⟩ := sendResponse_toResponse operation (decodeUtf8Lossy bs)
      exact ⟨_, rfl, .inl ⟨_, response, rfl, hresponse⟩⟩
    | iterator items raises => exact absurd rfl (h items raises)

/-- The server takes the request of a call off its line. -/
theorem handleLine_request (e : E) (call : Call) :
    LogvineServer.handleLine e (jsonLine call.request) =
      (Controller.handleRequest e (dumps call.request)).map id fun docs => some (docs.map jsonLine) := by
  obtain ⟨entries, _, hrequest, -, -⟩ := exists_requestData call
  rw [LogvineServer.handleLine, decodeUtf8_jsonLine, hrequest]
  simp only [strip_line]

/-- **One line answers a call that is no range read.** -/
theorem answer_single (e : E) {call : Call} (h : ¬call.IsRange) :
    ∃ doc, (LogvineServer.handleLine e (jsonLine call.request)).2 = some [jsonLine doc] := by
  rw [handleLine_request, Controller.handleRequest]
  split
  · exact ⟨_, rfl⟩
  · next operation hfrom =>
    have hsingle : ∀ startKey endKey, operation ≠ .readKeyRange startKey endKey := by
      rintro startKey endKey rfl
      exact h ((isRange_iff_upper call).mpr ((yields_request call).1 _ hfrom).symm)
    obtain ⟨doc, hdoc⟩ := Controller.respond_execute_single e hsingle
    refine ⟨doc, ?_⟩
    simp only [Prod.map_snd, hdoc, List.map_singleton]

/-- **A stream answers a range read**, or one line with an error. -/
theorem answer_range (e : E) {call : Call} (h : call.IsRange) :
    ∃ docs, (LogvineServer.handleLine e (jsonLine call.request)).2 = some (docs.map jsonLine) ∧
      ((∃ startKey endKey, Controller.Streamed (.readKeyRange startKey endKey) 1 docs) ∨
        ∃ err, docs = [Controller.errorResponse err]) := by
  rw [handleLine_request, Controller.handleRequest]
  split
  · next err hfrom => exact ⟨_, rfl, .inr ⟨err, rfl⟩⟩
  · next operation hfrom =>
    have hname := ((yields_request call).1 _ hfrom).trans ((isRange_iff_upper call).mp h)
    obtain ⟨startKey, endKey, rfl⟩ := exists_range_of_typeName hname
    exact ⟨_, rfl, .inl ⟨startKey, endKey, Controller.streamed_respond e startKey endKey⟩⟩

end LogvineClient

end Logvine
