import Logvine.Network.ClientRequests
import Logvine.Network.Streaming
import Logvine.Storage.Contents

/-!
# Calls on a map

What the calls of the clients come to is what they would come to on a map from keys to
values. The server answers the request of a call in one go: no other request is taken
up in between.

- `Outcome`: what a client gets from a call, made of the lines it reads;
- `Gives`: what a call may come to on a map, and what it makes of the map;
- `Shows`: the engine answers as the map, and its keys and values are texts;
- `gives_answer`: the answer to a request is what the call gives on the map, and the
  engine then answers as the new map.

An answer with an error has to mean something as well: a batch is refused for its size
(`engine.py`, 258–259), with all keys counted as new at worst, and any write for a record
that does not fit (`wal.py`, 204–217). So `Gives` takes the limit, and a served write says
whether it could be written.
-/

namespace Logvine

open Json Layer LSMStorageEngine

namespace LogvineClient

/-! ## Outcomes -/

/-- What a client gets from a call: a range read yields pairs and ends. -/
inductive Outcome where
  | returned (value : Json)
  | raised (err : ClientError)
  | read (pairs : List (Json × Json)) (ending : RangeEnd)

/-- A call that raises at once. -/
def Call.failure (call : Call) (err : ClientError) : Outcome :=
  if call.IsRange then .read [] (.raised err) else .raised err

/-- What a call comes to that reads these lines. -/
def Call.outcome (call : Call) (lines : List Bytes) : Outcome :=
  if call.IsRange then .read (LogvineClient.readKeyRange (lines.map some)).1 (LogvineClient.readKeyRange (lines.map some)).2
  else
    match lines with
    | [] => .raised (.runtimeError (.string (text "Server closed connection")))
    | line :: _ =>
      match readJsonLine line >>= sendResponse with
      | .ok response => .returned (returned call response)
      | .error err => .raised err

theorem outcome_range {call : Call} (h : call.IsRange) (lines : List Bytes) :
    call.outcome lines =
      .read (LogvineClient.readKeyRange (lines.map some)).1 (LogvineClient.readKeyRange (lines.map some)).2 := if_pos h

theorem outcome_single {call : Call} (h : ¬call.IsRange) (doc : Json) :
    call.outcome [jsonLine doc] =
      match sendResponse (readBack doc) with
      | .ok response => .returned (returned call response)
      | .error err => .raised err := by
  rw [Call.outcome, if_neg h, readJsonLine_jsonLine]
  rfl

/-- A single line with an error makes any call raise. -/
theorem outcome_errorResponse (call : Call) (err : PyError) :
    ∃ argument, call.outcome [jsonLine (Controller.errorResponse err)] = call.failure (.runtimeError argument) := by
  by_cases h : call.IsRange
  · obtain ⟨argument, hstep⟩ := rangeStep_errorResponse err
    refine ⟨argument, ?_⟩
    rw [outcome_range h, Call.failure, if_pos h, List.map_singleton, LogvineClient.readKeyRange]
    simp only [readJsonLine_jsonLine, hstep]
  · obtain ⟨argument, hraised⟩ := sendResponse_errorResponse err
    exact ⟨argument, by rw [outcome_single h, hraised, Call.failure, if_neg h]⟩

end LogvineClient

open LogvineClient

/-! ## Calls on a map -/

namespace LSMStorageEngine

/-- The records a write puts into the log. -/
def Op.records : Op → List LogRecord
  | .put key value => [⟨OperationType.put, key, value⟩]
  | .delete key => [⟨OperationType.delete, key, []⟩]
  | .batchPut keys values => Wal.batchRecords OperationType.put keys values
  | _ => []

/-- All its records fit the log. -/
def Op.Writable (op : Op) : Prop := ∀ r ∈ op.records, r.Fits

/-- The size of a batch whose keys are all new. -/
def newSize (items : List (Bytes × Bytes)) : Int := batchInputSize (.init 0) items

/-- Sizes for which the storage may refuse a write: a record does not fit the log, or a
batch goes beyond the limit if its keys are all new. -/
def Op.Refusable (limit : Int) : Op → Prop
  | .batchPut keys values => ¬(Op.batchPut keys values).Writable ∨ limit < newSize (keys.zip values)
  | op => ¬op.Writable

/-- What a memtable holds of an entry only makes it count for less. -/
theorem entrySize_le (m : MemTable) (key value : Bytes) :
    entrySize m key value ≤ entrySize (.init 0) key value := by
  have hnew : entrySize (.init 0) key value = value.length + 64 + key.length := rfl
  rw [hnew, entrySize]
  split <;> omega

/-- No memtable makes a batch larger than it is when its keys are new. -/
theorem batchInputSize_le (m : MemTable) (items : List (Bytes × Bytes)) :
    batchInputSize m items ≤ newSize items := by
  have hfrom : ∀ size size' : Int, size ≤ size' →
      items.foldl (fun size item => size + entrySize m item.1 item.2) size ≤
        items.foldl (fun size item => size + entrySize (.init 0) item.1 item.2) size' := by
    induction items with
    | nil => exact fun _ _ hle => hle
    | cons item items ih =>
      exact fun size size' hle => ih _ _ (Int.add_le_add hle (entrySize_le m item.1 item.2))
  exact hfrom 0 0 (Int.le_refl 0)

theorem writable_iff_of_single {op : Op} {r : LogRecord} (h : op.records = [r]) : op.Writable ↔ r.Fits := by
  rw [Op.Writable, h, List.forall_mem_singleton]

/-- What was accepted fits the log. -/
theorem writable_of_accepted {L : Type} {e : LSMStorageEngine L} {op : Op} (h : op.Accepted e) : op.Writable := by
  cases op with
  | put key value => exact (writable_iff_of_single rfl).mpr h
  | delete key => exact (writable_iff_of_single rfl).mpr h
  | batchPut keys values => exact h.2.2
  | rotate | flush nameMs createdMs | compact nowNs createdMs => exact List.forall_mem_nil _

/-- What was not accepted is refused for its sizes, unless a batch has not as many keys as
values. -/
theorem refusable_of_not_accepted {L : Type} {e : LSMStorageEngine L} {op : Op}
    (hlen : ∀ keys values, op = .batchPut keys values → keys.length = values.length) (h : ¬op.Accepted e) :
    op.Refusable e.memtableMaxSize := by
  cases op with
  | put key value => exact mt (writable_iff_of_single rfl).mp h
  | delete key => exact mt (writable_iff_of_single rfl).mp h
  | batchPut keys values =>
    by_cases hwritable : (Op.batchPut keys values).Writable
    · have hsize : ¬batchInputSize e.memtable (keys.zip values) ≤ e.memtableMaxSize :=
        fun hle => h ⟨hlen keys values rfl, hle, hwritable⟩
      exact .inr (lt_of_lt_of_le (not_le.mp hsize) (batchInputSize_le e.memtable _))
    · exact .inl hwritable
  | rotate | flush nameMs createdMs | compact nowNs createdMs => exact absurd trivial h

end LSMStorageEngine

/-- The write of an operation, if it is one. -/
def RequestOperation.write? : RequestOperation → Option Op
  | .put key value => some (.put key value)
  | .delete key => some (.delete key)
  | .batchPut keys values => some (.batchPut keys values)
  | .get _ | .readKeyRange _ _ => none

/-- The call asks for something that is no write. -/
def LogvineClient.Call.Reads (call : Call) : Prop := ∃ operation, call.Asks operation ∧ operation.write? = none

/-- The texts of a pair. -/
def PairTexts (item : Bytes × Bytes) (t : Text × Text) : Prop :=
  encodeUtf8 t.1 = some item.1 ∧ encodeUtf8 t.2 = some item.2

/-- What a call may come to on a map, and what it leaves of the map, where batches are held
to a limit. -/
inductive Gives (limit : Int) (m : Contents) (call : Call) : Outcome → Contents → Prop
  /-- It asks for nothing: a text cannot be encoded, the key of a put, get, delete or range
  read is empty, or a batch is empty or of unequal lengths. It raises. -/
  | refused (hnone : ∀ operation, ¬call.Asks operation) (argument : Json) :
      Gives limit m call (call.failure (.runtimeError argument)) m
  /-- A write that fits the log returns, and has been made. -/
  | written {operation : RequestOperation} {op : Op} (hasks : call.Asks operation) (hop : operation.write? = some op)
      (hwritable : op.Writable) : Gives limit m call (.returned (.bool true)) (op.liveEffect m)
  /-- A write with such sizes raises, and nothing of it has been made. -/
  | rejected {operation : RequestOperation} {op : Op} (hasks : call.Asks operation) (hop : operation.write? = some op)
      (hrefusable : op.Refusable limit) (argument : Json) : Gives limit m call (.raised (.runtimeError argument)) m
  | found {key value : Bytes} {t : Text} (hasks : call.Asks (.get key)) (hm : m key = some value)
      (ht : encodeUtf8 t = some value) : Gives limit m call (.returned (.string t)) m
  | missing {key : Bytes} (hasks : call.Asks (.get key)) (hm : m key = none) :
      Gives limit m call (.raised (.runtimeError (.string (text "Key not found")))) m
  /-- A range read yields the pairs of the range by increasing key, and ends. -/
  | range {startKey endKey : Bytes} {items : List (Bytes × Bytes)} {texts : List (Text × Text)}
      (hasks : call.Asks (.readKeyRange startKey endKey)) (hasc : Ascending items)
      (hitems : ∀ key value, (key, value) ∈ items ↔ startKey ≤ key ∧ key < endKey ∧ m key = some value)
      (htexts : List.Forall₂ PairTexts items texts) :
      Gives limit m call (.read (texts.map fun t => (.string t.1, .string t.2)) .finished) m

/-- The encoding of some text. -/
def IsText (bs : Bytes) : Prop := ∃ t, encodeUtf8 t = some bs

/-- All keys and values are encodings of texts. -/
def OfTexts (m : Contents) : Prop := ∀ key value, m key = some value → IsText key ∧ IsText value

/-- The engine answers as the map. -/
structure Shows [Zlib] (e : LSMStorageEngine Wal) (m : Contents) : Prop where
  sound : Sound e
  live : ∀ key, Reading.live (view e key) = m key
  texts : OfTexts m

/-! ## What the server answers -/

section Answers

variable [Python] {E : Type} [StorageEngine E]

/-- What a request line asks for. -/
def asked (line : Bytes) : Option RequestOperation :=
  (decodeUtf8 line).bind fun s => (OperationFactory.fromJson (strip s)).toOption

/-- The request line asks for something that is no write. -/
def AsksToRead (line : Bytes) : Prop := ∃ operation ∈ asked line, operation.write? = none

instance (line : Bytes) : Decidable (AsksToRead line) := inferInstanceAs (Decidable (∃ operation ∈ asked line, _))

omit [StorageEngine E] in
theorem asked_request {call : Call} {operation : RequestOperation} :
    asked (jsonLine call.request) = some operation ↔ call.Asks operation := by
  obtain ⟨entries, _, hrequest, -, -⟩ := exists_requestData call
  have hstrip : strip (dumps call.request ++ [chr '\n']) = dumps call.request := by
    rw [hrequest]
    exact strip_line entries
  rw [asked, decodeUtf8_jsonLine, Option.bind_some, hstrip, ← fromJson_iff_asks]
  cases OperationFactory.fromJson (dumps call.request) with
  | error err =>
    constructor
    · rintro ⟨⟩
    · rintro ⟨⟩
  | ok operation' =>
    constructor
    · exact fun h => congrArg Except.ok (Option.some.inj h)
    · exact fun h => congrArg some (Except.ok.inj h)

omit [StorageEngine E] in
theorem asksToRead_request {call : Call} : AsksToRead (jsonLine call.request) ↔ call.Reads :=
  exists_congr fun _ => and_congr_left fun _ => asked_request

/-- A request that asks for nothing is answered by an error. -/
theorem handleLine_refused (e : E) {call : Call} (h : ∀ operation, ¬call.Asks operation) :
    ∃ err, LogvineServer.handleLine e (jsonLine call.request) = (e, some [jsonLine (Controller.errorResponse err)]) := by
  obtain ⟨message, hfrom⟩ := fromJson_of_not_asks h
  refine ⟨.valueError message, ?_⟩
  rw [handleLine_request, Controller.handleRequest, hfrom]
  rfl

/-- A request that asks for an operation is answered by its result. -/
theorem handleLine_asks (e : E) {call : Call} {operation : RequestOperation} (h : call.Asks operation) :
    LogvineServer.handleLine e (jsonLine call.request) =
      ((operation.execute e).1, some ((Controller.respond operation (operation.execute e).2).map jsonLine)) := by
  rw [handleLine_request, Controller.handleRequest, fromJson_iff_asks.mpr h]
  rfl

end Answers

theorem not_isRange_of_write {call : Call} {operation : RequestOperation} (h : call.Asks operation) {op : Op}
    (hop : operation.write? = some op) : ¬call.IsRange := by
  intro hrange
  cases call with
  | readKeyRange startKey endKey => cases operation <;> first | exact h | cases hop
  | put _ _ | get _ | delete _ | batchPut _ _ => exact hrange

/-- A batch that was asked for has as many keys as values. -/
theorem length_of_asks {call : Call} {operation : RequestOperation} (h : call.Asks operation) {op : Op}
    (hop : operation.write? = some op) (keys values : List Bytes) (heq : op = .batchPut keys values) :
    keys.length = values.length := by
  subst heq
  cases operation with
  | batchPut ks vs =>
    obtain ⟨rfl, rfl⟩ := Op.batchPut.inj (Option.some.inj hop)
    cases call with
    | batchPut _ _ => exact h.2.2.2
    | put _ _ | get _ | delete _ | readKeyRange _ _ => exact h.elim
  | get _ | readKeyRange _ _ | put _ _ | delete _ => cases hop

theorem not_get_of_write {call : Call} {operation : RequestOperation} (h : call.Asks operation) {op : Op}
    (hop : operation.write? = some op) (key : Text) : call ≠ .get key := by
  rintro rfl
  cases operation <;> first | exact h | cases hop

/-! ## Writes -/

theorem clockOk_of_target {e : LSMStorageEngine Wal} {op : Op} (h : op.target e = none) : ClockOk e op := by
  refine ⟨?_, fun hne => absurd h hne⟩
  intro path hpath
  rw [h] at hpath
  cases hpath

theorem ofTexts_update {m : Contents} (h : OfTexts m) {key : Bytes} (hkey : IsText key) {value : Option Bytes}
    (hvalue : ∀ v, value = some v → IsText v) : OfTexts (Function.update m key value) := by
  intro k v hk
  by_cases heq : k = key
  · subst heq
    rw [Function.update_self] at hk
    exact ⟨hkey, hvalue v hk⟩
  · rw [Function.update_of_ne heq] at hk
    exact h k v hk

theorem isText_of_live {value v : Bytes} (h : IsText value) (hv : Reading.live (some value) = some v) : IsText v := by
  rw [Reading.live_some] at hv
  split at hv
  · exact Option.some.inj hv ▸ h
  · cases hv

/-- The keys and values of an operation that was asked for are texts. -/
theorem ofTexts_liveEffect {m : Contents} (h : OfTexts m) {call : Call} {operation : RequestOperation}
    (hasks : call.Asks operation) {op : Op} (hop : operation.write? = some op) : OfTexts (op.liveEffect m) := by
  have hcarried : ∀ {s : Text} {bs : Bytes}, Carries s bs → IsText bs := fun hbs => ⟨_, hbs⟩
  have hall : ∀ {ss : List Text} {bss : List Bytes}, List.Forall₂ Carries ss bss → ∀ bs ∈ bss, IsText bs := by
    intro ss bss hbss
    induction hbss with
    | nil => exact List.forall_mem_nil _
    | cons hbs _ ih => exact List.forall_mem_cons.mpr ⟨hcarried hbs, ih⟩
  cases operation with
  | get _ => cases hop
  | readKeyRange _ _ => cases hop
  | put k v =>
    obtain rfl := Option.some.inj hop
    cases call with
    | put key value =>
      exact ofTexts_update h (hcarried hasks.1) fun v' hv' => isText_of_live (hcarried hasks.2.2) hv'
    | get _ | delete _ | batchPut _ _ | readKeyRange _ _ => exact hasks.elim
  | delete k =>
    obtain rfl := Option.some.inj hop
    cases call with
    | delete key => exact ofTexts_update h (hcarried hasks.1) fun v' hv' => (by cases hv')
    | get _ | put _ _ | batchPut _ _ | readKeyRange _ _ => exact hasks.elim
  | batchPut ks vs =>
    obtain rfl := Option.some.inj hop
    cases call with
    | batchPut keys values =>
      -- the entries are put one after the other, each of them two texts
      have hitems : ∀ item ∈ ks.zip vs, IsText item.1 ∧ IsText item.2 := fun item hitem =>
        ⟨hall hasks.1 _ (List.of_mem_zip hitem).1, hall hasks.2.1 _ (List.of_mem_zip hitem).2⟩
      show OfTexts ((ks.zip vs).foldl _ m)
      generalize ks.zip vs = items at hitems
      induction items generalizing m with
      | nil => exact h
      | cons item items ih =>
        obtain ⟨⟨hkey, hvalue⟩, hrest⟩ := List.forall_mem_cons.mp hitems
        exact ih (ofTexts_update h hkey fun v' hv' => isText_of_live hvalue hv') hrest
    | get _ | put _ _ | delete _ | readKeyRange _ _ => exact hasks.elim

section Reads

/-- The client reads all chunks of a stream, however many. -/
theorem readKeyRange_chunks (startKey endKey : Bytes) (chunks : List (List (Text × Text) × Nat)) :
    LogvineClient.readKeyRange (((chunks.map (chunkDoc startKey endKey) ++ [doneDoc startKey endKey]).map jsonLine).map
      some) = (chunks.flatMap fun c => yielded c.1, .finished) := by
  induction chunks with
  | nil => exact readKeyRange_done startKey endKey []
  | cons c chunks ih =>
    rw [List.map_cons, List.cons_append, List.map_cons, List.map_cons, chunkDoc, readKeyRange_chunk, ih]
    rfl

/-- Texts for all pairs. -/
theorem exists_texts {items : List (Bytes × Bytes)} (h : ∀ item ∈ items, IsText item.1 ∧ IsText item.2) :
    ∃ texts, List.Forall₂ PairTexts items texts := by
  induction items with
  | nil => exact ⟨[], .nil⟩
  | cons item items ih =>
    obtain ⟨⟨⟨s, hs⟩, ⟨t, ht⟩⟩, hrest⟩ := List.forall_mem_cons.mp h
    obtain ⟨texts, htexts⟩ := ih hrest
    exact ⟨(s, t) :: texts, .cons ⟨hs, ht⟩ htexts⟩

variable [Python] {e : LSMStorageEngine Wal} {m : Contents} {limit : Int}

theorem gives_get (h : Shows e m) {call : Call} {key : Bytes} (hasks : call.Asks (.get key)) :
    Gives limit m call (call.outcome ((Controller.respond (.get key) (RequestOperation.execute e (.get key)).2).map jsonLine))
      m := by
  have hcall : ∃ s, call = .get s := by
    cases call with
    | get s => exact ⟨s, rfl⟩
    | put _ _ | delete _ | batchPut _ _ | readKeyRange _ _ => exact hasks.elim
  obtain ⟨s, rfl⟩ := hcall
  have hget := Reading.get_eq h.sound.readable e.memtable key
  rw [show Reading.view e.memtable e.tables key = view e key from rfl, h.live] at hget
  cases hm : m key with
  | none =>
    rw [hm] at hget
    have hexecute : (RequestOperation.execute e (.get key)).2 = .error (.ofError (.keyError key)) := by
      show ((Reading.get e.memtable e.tables key).mapError PyError.ofError).map Result.bytes = _
      rw [hget]
      rfl
    have hmissing := outcome_single (show ¬(Call.get s).IsRange from id)
      ((RequestOperation.get key).toErrorResponse (text "Key not found"))
    rw [sendResponse_toErrorResponse] at hmissing
    rw [hexecute]
    show Gives _ m _ (Call.outcome _ [jsonLine _]) m
    rw [hmissing]
    exact .missing hasks hm
  | some value =>
    rw [hm] at hget
    obtain ⟨t, ht⟩ := (h.texts key value hm).2
    have hexecute : (RequestOperation.execute e (.get key)).2 = .ok (.bytes value) := by
      show ((Reading.get e.memtable e.tables key).mapError PyError.ofError).map Result.bytes = _
      rw [hget]
      rfl
    obtain ⟨response, hresponse, hreturned, -⟩ := sendResponse_toResponse (.get key) t
    have hfound := outcome_single (show ¬(Call.get s).IsRange from id) ((RequestOperation.get key).toResponse t)
    rw [hresponse] at hfound
    rw [hexecute]
    show Gives _ m _ (Call.outcome _ [jsonLine ((RequestOperation.get key).toResponse (decodeUtf8Lossy value))]) m
    rw [decodeUtf8Lossy_of_decodeUtf8 (decodeUtf8_encodeUtf8 ht), hfound]
    simp only
    rw [hreturned s, readBackText_of_scalar (scalar_of_encodeUtf8 ht)]
    exact .found hasks hm ht

theorem gives_range (h : Shows e m) {call : Call} {startKey endKey : Bytes}
    (hasks : call.Asks (.readKeyRange startKey endKey)) :
    Gives limit m call (call.outcome ((Controller.respond (.readKeyRange startKey endKey)
      (RequestOperation.execute e (.readKeyRange startKey endKey)).2).map jsonLine)) m := by
  have hrange : call.IsRange := by
    cases call with
    | readKeyRange s e => trivial
    | put _ _ | delete _ | batchPut _ _ | get _ => exact hasks.elim
  obtain ⟨items, hread, hasc, hitems⟩ := readKeyRange_of_sound h.sound startKey endKey
  have hmap : ∀ key value, (key, value) ∈ items ↔ startKey ≤ key ∧ key < endKey ∧ m key = some value := by
    intro key value
    rw [hitems, get_of_sound h.sound, h.live]
  have htext : ∀ item ∈ items, IsText item.1 ∧ IsText item.2 := fun item hitem =>
    h.texts item.1 item.2 ((hmap item.1 item.2).mp hitem).2.2
  obtain ⟨texts, htexts⟩ := exists_texts htext
  have hdecoded : Controller.Decoded items texts :=
    htexts.imp fun _ _ ht => ⟨decodeUtf8_encodeUtf8 ht.1, decodeUtf8_encodeUtf8 ht.2⟩
  have hrespond : Controller.respond (.readKeyRange startKey endKey)
      (RequestOperation.execute e (.readKeyRange startKey endKey)).2 =
        (numbered texts).map (chunkDoc startKey endKey) ++ [doneDoc startKey endKey] := by
    have hexecute : (RequestOperation.execute e (.readKeyRange startKey endKey)).2 = .ok (.iterator items none) := by
      have hengine : StorageEngine.readKeyRange e startKey endKey = (items, none) := by
        simp only [StorageEngine.readKeyRange, hread]
      show Except.ok (Result.iterator (StorageEngine.readKeyRange e startKey endKey).1
        (StorageEngine.readKeyRange e startKey endKey).2) = _
      rw [hengine]
    rw [hexecute]
    show Controller.streamResponse _ none [] 1 items = _
    rw [Controller.streamResponse_whole _ hdecoded, chunkDocs_eq_numbered]
    rfl
  rw [hrespond, outcome_range hrange, readKeyRange_chunks, flatMap_yielded, yielded_decoded hdecoded]
  exact .range hasks hasc hmap htexts

end Reads

section Answered

variable {e : LSMStorageEngine Wal} {m : Contents}

/-- A write does not look at the tables. -/
theorem run_withTables {L : Type} [Log L] (e : LSMStorageEngine L) (t : Tables) {operation : RequestOperation} {op : Op}
    (hop : operation.write? = some op) :
    op.run { e with tables := t } = ({ (op.run e).1 with tables := t }, (op.run e).2) := by
  cases operation with
  | get _ => cases hop
  | readKeyRange _ _ => cases hop
  | put key value =>
    obtain rfl := Option.some.inj hop
    simp only [Op.run, put]
    rcases Log.append e.wal OperationType.put key value with ⟨wal, err | offset⟩ <;> rfl
  | delete key =>
    obtain rfl := Option.some.inj hop
    simp only [Op.run, delete]
    rcases Log.append e.wal OperationType.delete key [] with ⟨wal, err | offset⟩ <;> rfl
  | batchPut keys values =>
    obtain rfl := Option.some.inj hop
    simp only [Op.run, batchPut]
    split
    · rfl
    · split
      · rfl
      · rcases Log.appendBatch e.wal OperationType.put keys values with ⟨wal, err | lastOffset⟩ <;> rfl

/-- A write keeps the engine to the map it makes of the map before. -/
theorem shows_write (h : Shows e m) {call : Call} {operation : RequestOperation} (hasks : call.Asks operation) {op : Op}
    (hop : operation.write? = some op) :
    Shows (op.run e).1 (if (op.run e).2 = .ok () then op.liveEffect m else m) := by
  have hclock : ClockOk e op := by
    refine clockOk_of_target ?_
    cases operation <;> cases hop <;> rfl
  refine ⟨(sound_run h.sound hclock.1).1, fun key => ?_, ?_⟩
  · rw [view_run h.sound hclock]
    split
    · exact live_written_eq h.live key
    · exact h.live key
  · split
    · exact ofTexts_liveEffect h.texts hasks hop
    · exact h.texts

/-- What a request leaves as it was: the tables and settings, and the buffers that wait to be
flushed, to which it may add. -/
structure Spares (e e' : LSMStorageEngine Wal) : Prop where
  tables : e'.tables = e.tables
  storagePath : e'.storagePath = e.storagePath
  memtableMaxSize : e'.memtableMaxSize = e.memtableMaxSize
  extended : Extends e.memtable e'.memtable

theorem spares_refl (e : LSMStorageEngine Wal) : Spares e e := ⟨rfl, rfl, rfl, List.prefix_rfl⟩

theorem spares_write (e : LSMStorageEngine Wal) {operation : RequestOperation} {op : Op}
    (hop : operation.write? = some op) : Spares e (op.run e).1 := by
  have hcreated : op.createdMs = none := by cases operation <;> cases hop <;> rfl
  have hwrote := wrote_run e op hcreated
  have hkept : (op.run e).1.memtableMaxSize = e.memtableMaxSize ∧ Extends e.memtable (op.run e).1.memtable := by
    cases operation with
    | get _ => cases hop
    | readKeyRange _ _ => cases hop
    | put key value =>
      obtain rfl := Option.some.inj hop
      rcases run_put e key value with ⟨offset, -, heq⟩ | ⟨err, heq⟩ <;> rw [heq]
      · exact ⟨rfl, extends_putSection ..⟩
      · exact ⟨rfl, List.prefix_rfl⟩
    | delete key =>
      obtain rfl := Option.some.inj hop
      rcases run_delete e key with ⟨offset, -, heq⟩ | ⟨err, heq⟩ <;> rw [heq]
      · exact ⟨rfl, List.prefix_rfl⟩
      · exact ⟨rfl, List.prefix_rfl⟩
    | batchPut keys values =>
      obtain rfl := Option.some.inj hop
      rcases run_batchPut e keys values with ⟨offset, -, -, -, heq⟩ | ⟨wal, err, heq⟩ <;> rw [heq]
      · exact ⟨rfl, extends_batchSection ..⟩
      · exact ⟨rfl, List.prefix_rfl⟩
  exact ⟨hwrote.tables, hwrote.storagePath, hkept.1, hkept.2⟩

variable [Python]

theorem execute_write (e : LSMStorageEngine Wal) {operation : RequestOperation} {op : Op}
    (hop : operation.write? = some op) :
    ∃ result, operation.execute e =
      ((op.run e).1, ((op.run e).2.mapError PyError.ofError).map fun _ => Result.text result) := by
  cases operation <;> cases hop <;> exact ⟨_, rfl⟩

theorem gives_write {call : Call} {operation : RequestOperation} (hasks : call.Asks operation) {op : Op}
    (hop : operation.write? = some op) :
    Gives e.memtableMaxSize m call (call.outcome ((Controller.respond operation (operation.execute e).2).map jsonLine))
      (if (op.run e).2 = .ok () then op.liveEffect m else m) := by
  have hsingle := not_isRange_of_write hasks hop
  obtain ⟨result, hexecute⟩ := execute_write e hop
  rw [hexecute]
  cases hrun : (op.run e).2 with
  | ok value =>
    obtain ⟨response, hresponse, -, hreturned⟩ := sendResponse_toResponse operation result
    have hdone := outcome_single hsingle (operation.toResponse result)
    rw [hresponse] at hdone
    rw [if_pos rfl]
    show Gives _ m _ (Call.outcome _ [jsonLine (operation.toResponse result)]) _
    rw [hdone]
    simp only
    rw [hreturned call (not_get_of_write hasks hop)]
    exact .written hasks hop (writable_of_accepted ((accepted_iff e op).mp hrun))
  | error err =>
    have hrefused : ¬op.Accepted e := by
      rw [← accepted_iff, hrun]
      rintro ⟨⟩
    have hnot : ∀ items raises,
        (Except.error (PyError.ofError err) : Except PyError Result) ≠ .ok (.iterator items raises) := by
      rintro items raises ⟨⟩
    obtain ⟨doc, hdoc, ⟨_, _, hok, -⟩ | ⟨_, argument, -, hraised⟩⟩ := sendResponse_respond operation hnot
    · cases hok
    · have hfailed := outcome_single hsingle doc
      rw [hraised] at hfailed
      rw [if_neg (by rintro ⟨⟩)]
      show Gives _ m _ (Call.outcome _ ((Controller.respond operation (.error (PyError.ofError err))).map jsonLine)) _
      rw [hdoc, List.map_singleton, hfailed]
      exact .rejected hasks hop (refusable_of_not_accepted (length_of_asks hasks hop) hrefused) argument

/-- **The answer to a request** is what the call gives on the map, and the engine then answers
as the map that the call has left. A write is made in memory, so it may be compared on other
tables than those of the engine. -/
theorem gives_answer {t : Tables} (h : Shows { e with tables := t } m) (call : Call) (hread : call.Reads → Shows e m) :
    ∃ e' lines m', LogvineServer.handleLine e (jsonLine call.request) = (e', some lines) ∧
      Gives e.memtableMaxSize m call (call.outcome lines) m' ∧ Shows { e' with tables := t } m' ∧ Spares e e' := by
  by_cases hasks : ∃ operation, call.Asks operation
  · obtain ⟨operation, hasks⟩ := hasks
    rw [handleLine_asks e hasks]
    cases hop : operation.write? with
    | some op =>
      obtain ⟨result, hexecute⟩ := execute_write e hop
      refine ⟨_, _, _, rfl, gives_write hasks hop, ?_⟩
      have hshows := shows_write h hasks hop
      rw [run_withTables e t hop] at hshows
      rw [hexecute]
      exact ⟨hshows, spares_write e hop⟩
    | none =>
      have hshows := hread ⟨operation, hasks, hop⟩
      cases operation with
      | get key => exact ⟨_, _, _, rfl, gives_get hshows hasks, h, spares_refl e⟩
      | readKeyRange startKey endKey => exact ⟨_, _, _, rfl, gives_range hshows hasks, h, spares_refl e⟩
      | put _ _ | delete _ | batchPut _ _ => cases hop
  · have hnone := not_exists.mp hasks
    obtain ⟨err, hanswer⟩ := handleLine_refused e hnone
    obtain ⟨argument, hfailure⟩ := outcome_errorResponse call err
    refine ⟨_, _, m, hanswer, ?_, h, spares_refl e⟩
    rw [hfailure]
    exact .refused hnone argument

end Answered

end Logvine
