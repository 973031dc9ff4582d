import Logvine.Base.Lines
import Logvine.Network.Operations

/-!
# The controller

What the server writes for one request line.

- `streamResponse`: the documents of a range read, in chunks of `chunkSize` pairs;
- `handleRequest`: the documents for a request text;
- `handleLine`: the lines for a request line, as the server of a connection writes them.

Every request is answered by one document, but a range read that passes the checks by a
stream (`Streamed`): chunks with consecutive numbers, none of them empty, then one end.

The source is `controller.py`, 56–129, and `server.py`, 54–71. A key that cannot be decoded
ends a stream in its middle (`controller.py`, 112 and 127–129): the chunks before it have
been sent by then.
-/

namespace Logvine

open Json

section

variable [Python]

/-- `str(e)`. -/
def PyError.str : PyError → Text
  | .keyError message | .valueError message | .batchTooLarge message | .other message => message

namespace Controller

/-- `chunk_size`. -/
def chunkSize : Nat := 100

/-- The document for an exception that names no operation. -/
def errorResponse : PyError → Json
  | .batchTooLarge message =>
    .object [(text "status", .string (text "error")), (text "error", .string message),
      (text "error_type", .string (text "batch_too_large"))]
  | err => .object [(text "status", .string (text "error")), (text "error", .string err.str)]

/-- `_stream_response`, within its loop: `chunk` is not written yet. The iterator ends with
`raises`. -/
def streamResponse (operation : RequestOperation) (raises : Option PyError) :
    List (Text × Text) → Nat → List (Bytes × Bytes) → List Json
  | chunk, chunkId, [] =>
    match raises with
    | some err => [operation.toStreamError err.str]
    | none => (if chunk.isEmpty then [] else [operation.toStreamResponse chunk chunkId]) ++ [operation.toStreamDone]
  | chunk, chunkId, (key, value) :: items =>
    match decodeUtf8 key with
    | none => [operation.toStreamError (Python.unicodeDecodeError key)]
    | some k =>
      match decodeUtf8 value with
      | none => [operation.toStreamError (Python.unicodeDecodeError value)]
      | some v =>
        if chunkSize ≤ (chunk ++ [(k, v)]).length then
          operation.toStreamResponse (chunk ++ [(k, v)]) chunkId ::
            streamResponse operation raises [] (chunkId + 1) items
        else streamResponse operation raises (chunk ++ [(k, v)]) chunkId items

/-- What is written for the result of an operation, or for its exception. -/
def respond (operation : RequestOperation) : Except PyError Result → List Json
  | .error (.keyError _) => [operation.toErrorResponse (text "Key not found")]
  | .error err => [errorResponse err]
  | .ok (.iterator items raises) => streamResponse operation raises [] 1 items
  | .ok (.text s) => [operation.toResponse s]
  | .ok (.bytes bs) => [operation.toResponse (decodeUtf8Lossy bs)]

/-- `handle_request`. What `from_json` raises is never a `KeyError` (`fromJson_ne_keyError`). -/
def handleRequest {E : Type} [StorageEngine E] (e : E) (data : Text) : E × List Json :=
  match OperationFactory.fromJson data with
  | .error err => (e, [errorResponse err])
  | .ok operation => (operation.execute e).map id (respond operation)

end Controller

/-! ## The server -/

/-- The line end. -/
def newline : UInt8 := 10

/-- The limit of a `StreamReader`, in bytes before the line end. -/
def lineLimit : Nat := 2 ^ 16

/-- The text of a document as bytes; it is ASCII (`ascii_dumps`). -/
def jsonBytes (j : Json) : Bytes := asciiBytes (Json.dumps j)

/-- `json.dumps(…).encode() + b"\n"`. -/
def jsonLine (j : Json) : Bytes := jsonBytes j ++ [newline]

/-- `str.isspace` of one character. -/
def isSpace (c : CodePoint) : Bool :=
  decide (9 ≤ c.val ∧ c.val ≤ 13 ∨ 28 ≤ c.val ∧ c.val ≤ 32 ∨ 0x2000 ≤ c.val ∧ c.val ≤ 0x200A) ||
    [0x85, 0xA0, 0x1680, 0x2028, 0x2029, 0x202F, 0x205F, 0x3000].contains c.val

/-- `str.strip`. -/
def strip (s : Text) : Text := (s.dropWhile isSpace).rdropWhile isSpace

/-- The lines that `handle_client` writes for a request line, or `none` if it closes the
connection. -/
def LogvineServer.handleLine {E : Type} [StorageEngine E] (e : E) (request : Bytes) : E × Option (List Bytes) :=
  match decodeUtf8 request with
  | some s => (Controller.handleRequest e (strip s)).map id fun docs => some (docs.map jsonLine)
  | none =>
    -- the message is written as it is, without the escapes of JSON
    (e, (encodeUtf8 (text "\x7b\"error\": \"" ++ Python.unicodeDecodeError request ++ text "\"\x7d\n")).map ([·]))

end

/-! ## Lines of documents -/

/-- A line is what `json.dumps` prints and a newline. -/
theorem jsonLine_eq (j : Json) : jsonLine j = asciiBytes (dumps j ++ [chr '\n']) := by
  rw [jsonLine, jsonBytes, asciiBytes, asciiBytes, List.map_append]
  rfl

/-- It is ASCII, so it is decoded as it was printed. -/
theorem decodeUtf8_jsonLine (j : Json) : decodeUtf8 (jsonLine j) = some (dumps j ++ [chr '\n']) := by
  rw [jsonLine_eq]
  apply decodeUtf8_ascii
  intro c hc
  rcases List.mem_append.mp hc with hc | hc
  · exact ascii_dumps j c hc
  · rw [List.mem_singleton.mp hc]
    decide

/-- `json.dumps` escapes newlines, so the only one is at the end. -/
theorem newline_notMem_jsonBytes (j : Json) : newline ∉ jsonBytes j := by
  intro hmem
  obtain ⟨c, hc, heq⟩ := List.mem_map.mp hmem
  have hval : c.val % 256 = 10 := congrArg UInt8.toNat heq
  have hascii := ascii_dumps j c hc
  have hc' : c = chr '\n' := Fin.ext (by
    have : (chr '\n').val = 10 := by decide
    omega)
  exact newline_notMem_dumps j (hc' ▸ hc)

/-- A printed object ends with its brace. -/
theorem dumpsEntries_end (isFirst : Bool) (entries : List (Text × Json)) :
    ∃ s, dumpsEntries isFirst entries = s ++ [chr '}'] := by
  induction entries generalizing isFirst with
  | nil => exact ⟨[], rfl⟩
  | cons e es ih =>
    obtain ⟨s, hs⟩ := ih false
    refine ⟨separator isFirst ++ (dumpsString e.1 ++ (text ": " ++ (dumps e.2 ++ s))), ?_⟩
    rw [dumpsEntries, hs]
    simp only [List.append_assoc]

/-- The server strips off the line end, and no more. -/
theorem strip_line (entries : List (Text × Json)) :
    strip (dumps (.object entries) ++ [chr '\n']) = dumps (.object entries) := by
  obtain ⟨s, hs⟩ := dumpsEntries_end true entries
  have hdumps : dumps (.object entries) = chr '{' :: (s ++ [chr '}']) := by rw [dumps, hs]
  have hopen : ¬isSpace (chr '{') = true := by decide
  have hclose : ¬isSpace (chr '}') = true := by decide
  have hline : isSpace (chr '\n') = true := by decide
  rw [hdumps, strip, List.cons_append, List.dropWhile_cons_of_neg hopen, ← List.cons_append,
    List.rdropWhile_concat_pos _ _ _ hline, ← List.cons_append, List.rdropWhile_concat_neg _ _ _ hclose]

/-! ## The chunks of a stream -/

namespace Controller

theorem chunkSize_pos : 0 < chunkSize := by decide

/-- The texts of some pairs. -/
def Decoded (items : List (Bytes × Bytes)) (texts : List (Text × Text)) : Prop :=
  List.Forall₂ (fun item t => decodeUtf8 item.1 = some t.1 ∧ decodeUtf8 item.2 = some t.2) items texts

/-- The pairs of one chunk, counted from 0. -/
def chunk (texts : List (Text × Text)) (i : Nat) : List (Text × Text) := (texts.drop (chunkSize * i)).take chunkSize

/-- How many chunks some pairs take. -/
def chunkCount (texts : List (Text × Text)) : Nat := (texts.length + (chunkSize - 1)) / chunkSize

/-- The documents of the chunks. -/
def chunkDocs (operation : RequestOperation) (chunkId : Nat) (texts : List (Text × Text)) : List Json :=
  (List.range (chunkCount texts)).map fun i => operation.toStreamResponse (chunk texts i) (chunkId + i)

/-- A chunk begins before the end of the items. -/
theorem lt_chunkCount {texts : List (Text × Text)} {i : Nat} :
    i < chunkCount texts ↔ chunkSize * i < texts.length := by
  simp only [chunkCount, chunkSize]
  omega

/-- No chunk is empty, and none has more than `chunkSize` pairs. -/
theorem length_chunk {texts : List (Text × Text)} {i : Nat} (h : i < chunkCount texts) :
    0 < (chunk texts i).length ∧ (chunk texts i).length ≤ chunkSize := by
  rw [lt_chunkCount] at h
  simp only [chunk, chunkSize, List.length_take, List.length_drop] at h ⊢
  omega

/-- The first chunks together are the first items. -/
theorem flatMap_chunk (texts : List (Text × Text)) (n : Nat) :
    ((List.range n).flatMap fun i => chunk texts i) = texts.take (chunkSize * n) := by
  induction n with
  | zero => rfl
  | succ n ih =>
    rw [List.range_succ, List.flatMap_append, ih, List.flatMap_singleton, chunk, ← List.take_add, Nat.mul_succ]

/-- The chunks are the pairs, in order. -/
theorem flatMap_chunks (texts : List (Text × Text)) :
    ((List.range (chunkCount texts)).flatMap fun i => chunk texts i) = texts := by
  rw [flatMap_chunk, List.take_of_length_le]
  simp only [chunkCount, chunkSize]
  omega

/-- A full chunk is sent, and the number goes up. -/
theorem chunkDocs_cons (operation : RequestOperation) (chunkId : Nat) {first : List (Text × Text)}
    (h : first.length = chunkSize) (texts : List (Text × Text)) :
    chunkDocs operation chunkId (first ++ texts) =
      operation.toStreamResponse first chunkId :: chunkDocs operation (chunkId + 1) texts := by
  have hcount : chunkCount (first ++ texts) = chunkCount texts + 1 := by
    simp only [chunkCount, List.length_append, h, chunkSize]
    omega
  have hfirst : chunk (first ++ texts) 0 = first := by
    rw [chunk, Nat.mul_zero, List.drop_zero, ← h, List.take_left]
  have hlater : ∀ i, chunk (first ++ texts) (i + 1) = chunk texts i := by
    intro i
    rw [chunk, chunk, Nat.mul_succ, Nat.add_comm, ← List.drop_drop, ← h, List.drop_left]
  rw [chunkDocs, hcount, List.range_succ_eq_map, List.map_cons, List.map_map, hfirst, Nat.add_zero, chunkDocs]
  congr 1
  apply List.map_congr_left
  intro i _
  rw [Function.comp_apply, hlater, Nat.succ_eq_add_one, Nat.add_assoc, Nat.add_comm 1 i]

/-- What is left at the end is sent as a chunk, unless nothing is left. -/
theorem chunkDocs_last (operation : RequestOperation) (chunkId : Nat) {last : List (Text × Text)}
    (h : last.length < chunkSize) :
    chunkDocs operation chunkId last =
      if last.isEmpty then [] else [operation.toStreamResponse last chunkId] := by
  cases last with
  | nil => rfl
  | cons pair pairs =>
    have hcount : chunkCount (pair :: pairs) = 1 := by
      simp only [chunkCount, List.length_cons, chunkSize] at h ⊢
      omega
    have hfirst : chunk (pair :: pairs) 0 = pair :: pairs := by
      rw [chunk, Nat.mul_zero, List.drop_zero, List.take_of_length_le h.le]
    rw [chunkDocs, hcount, List.range_one, List.map_singleton, hfirst]
    rfl

variable [Python]

/-- **The stream of a range read**: its pairs in chunks, numbered from `chunkId`, and the
end. -/
theorem streamResponse_decoded (operation : RequestOperation) {items : List (Bytes × Bytes)}
    {texts : List (Text × Text)} (h : Decoded items texts) {pending : List (Text × Text)}
    (hpending : pending.length < chunkSize) (chunkId : Nat) :
    streamResponse operation none pending chunkId items =
      chunkDocs operation chunkId (pending ++ texts) ++ [operation.toStreamDone] := by
  induction h generalizing pending chunkId with
  | nil =>
    rw [streamResponse, List.append_nil, chunkDocs_last operation chunkId hpending]
  | @cons item t items texts hdecode hrest ih =>
    obtain ⟨key, value⟩ := item
    rw [streamResponse]
    simp only [hdecode.1, hdecode.2]
    have hsplit : pending ++ t :: texts = (pending ++ [t]) ++ texts := by
      rw [List.append_assoc, List.singleton_append]
    have hlength : (pending ++ [t]).length = pending.length + 1 := List.length_append
    split
    · next hfull =>
      have hchunk : (pending ++ [t]).length = chunkSize := by
        rw [hlength] at hfull ⊢
        omega
      have hnil : ([] : List (Text × Text)).length < chunkSize := chunkSize_pos
      rw [hsplit, chunkDocs_cons operation chunkId hchunk, ih hnil, List.nil_append]
      rfl
    · next hfull => rw [hsplit, ih (Nat.lt_of_not_le hfull)]

/-- For items that can all be decoded: all chunks, then the last line. -/
theorem streamResponse_whole (operation : RequestOperation) {items : List (Bytes × Bytes)}
    {texts : List (Text × Text)} (h : Decoded items texts) :
    streamResponse operation none [] 1 items = chunkDocs operation 1 texts ++ [operation.toStreamDone] := by
  have hnil : ([] : List (Text × Text)).length < chunkSize := chunkSize_pos
  rw [streamResponse_decoded operation h hnil, List.nil_append]

/-! ## The shape of an answer -/

/-- The documents of a stream: chunks that hold something, with consecutive numbers, then
one end. -/
inductive Streamed (operation : RequestOperation) : Nat → List Json → Prop where
  | chunk {chunkId : Nat} {items : List (Text × Text)} {docs : List Json} (hitems : items ≠ [])
      (hdocs : Streamed operation (chunkId + 1) docs) :
      Streamed operation chunkId (operation.toStreamResponse items chunkId :: docs)
  | done {chunkId : Nat} : Streamed operation chunkId [operation.toStreamDone]
  | terminated {chunkId : Nat} (error : Text) : Streamed operation chunkId [operation.toStreamError error]

/-- Whatever the iterator yields and however it ends, a stream is written. -/
theorem streamed_streamResponse (operation : RequestOperation) (raises : Option PyError)
    (pending : List (Text × Text)) (chunkId : Nat) (items : List (Bytes × Bytes)) :
    Streamed operation chunkId (streamResponse operation raises pending chunkId items) := by
  have hlast : ∀ (pending : List (Text × Text)) (t : Text × Text), pending ++ [t] ≠ [] := by
    intro pending t
    simp
  fun_induction streamResponse operation raises pending chunkId items with
  | case1 pending chunkId err => exact .terminated _
  | case2 pending chunkId =>
    cases pending with
    | nil => exact .done
    | cons t pending => exact .chunk (List.cons_ne_nil t pending) .done
  | case3 pending chunkId key value items hkey => exact .terminated _
  | case4 pending chunkId key value items k hkey hvalue => exact .terminated _
  | case5 pending chunkId key value items k hkey v hvalue hfull ih => exact .chunk (hlast pending (k, v)) ih
  | case6 pending chunkId key value items k hkey v hvalue hfull ih => exact ih

/-- A result that is no iterator, or an exception, is answered by one document. -/
theorem respond_single (operation : RequestOperation) {r : Except PyError Result}
    (h : ∀ items raises, r ≠ .ok (.iterator items raises)) : ∃ doc, respond operation r = [doc] := by
  cases r with
  | error err => cases err <;> exact ⟨_, rfl⟩
  | ok result =>
    cases result with
    | text s => exact ⟨_, rfl⟩
    | bytes bs => exact ⟨_, rfl⟩
    | iterator items raises => exact absurd rfl (h items raises)

/-- A range read is answered by a stream. -/
theorem streamed_respond {E : Type} [StorageEngine E] (e : E) (startKey endKey : Bytes) :
    Streamed (.readKeyRange startKey endKey) 1
      (respond (.readKeyRange startKey endKey) (RequestOperation.execute e (.readKeyRange startKey endKey)).2) :=
  streamed_streamResponse _ _ [] 1 _

omit [Python] in
/-- Only a range read answers with an iterator. -/
theorem map_ne_iterator {α : Type} {f : α → Result} (h : ∀ a items raises, f a ≠ .iterator items raises)
    (r : Except PyError α) (items : List (Bytes × Bytes)) (raises : Option PyError) :
    r.map f ≠ .ok (.iterator items raises) := by
  intro heq
  cases r with
  | error err => cases heq
  | ok a => exact h a items raises (Except.ok.inj heq)

/-- Any other operation is answered by one document. -/
theorem respond_execute_single {E : Type} [StorageEngine E] (e : E) {operation : RequestOperation}
    (h : ∀ startKey endKey, operation ≠ .readKeyRange startKey endKey) :
    ∃ doc, respond operation (operation.execute e).2 = [doc] := by
  apply respond_single
  cases operation with
  | put key value => exact map_ne_iterator (by intros; intro heq; cases heq) _
  | get key => exact map_ne_iterator (by intros; intro heq; cases heq) _
  | delete key => exact map_ne_iterator (by intros; intro heq; cases heq) _
  | batchPut keys values => exact map_ne_iterator (by intros; intro heq; cases heq) _
  | readKeyRange startKey endKey => exact absurd rfl (h startKey endKey)

end Controller

end Logvine
