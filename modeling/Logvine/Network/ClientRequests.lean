import Logvine.Network.ReachableKeys

/-!
# The requests of the client

What the server makes of the request that a call of the client writes. The texts of the
request arrive as JSON carries them, a pair of surrogates as the one code point it
stands for.

- `Call.Asks`: the operation that a call asks for, if its texts can be encoded, the key
  of a put, get, delete or range read is not empty, and a batch is neither empty nor of
  unequal lengths (an empty key among those of a batch is not refused);
- `fromJson_request`: the server makes this operation of the request, and refuses the
  requests of all other calls.

The client itself checks one thing only, that a batch has as many values as keys
(`client.py`, 75–76, `Call.Raises`). What becomes of any other call is decided by
`operations.py`, in `OperationFactory.from_json` (448–476) and the `parse` methods.
-/

namespace Logvine

open Json

namespace LogvineClient

/-- The bytes of a text when it has been carried over. -/
def Carries (s : Text) (bs : Bytes) : Prop := encodeUtf8 (readBackText s) = some bs

instance (s : Text) (bs : Bytes) : Decidable (Carries s bs) :=
  inferInstanceAs (Decidable (encodeUtf8 (readBackText s) = some bs))

/-- The operation that a call asks for. -/
def Call.Asks : Call → RequestOperation → Prop
  | .put key value, .put k v => Carries key k ∧ k ≠ [] ∧ Carries value v
  | .get key, .get k => Carries key k ∧ k ≠ []
  | .delete key, .delete k => Carries key k ∧ k ≠ []
  | .batchPut keys values, .batchPut ks vs =>
    List.Forall₂ Carries keys ks ∧ List.Forall₂ Carries values vs ∧ ks ≠ [] ∧ ks.length = vs.length
  | .readKeyRange startKey endKey, .readKeyRange s e => (Carries startKey s ∧ s ≠ []) ∧ Carries endKey e ∧ e ≠ []
  | _, _ => False

/-- A call asks for one operation at most. -/
theorem Call.Asks.unique {call : Call} {operation operation' : RequestOperation} (h : call.Asks operation)
    (h' : call.Asks operation') : operation = operation' := by
  have hone : ∀ {s : Text} {bs bs' : Bytes}, Carries s bs → Carries s bs' → bs = bs' :=
    fun hbs hbs' => Option.some.inj (hbs.symm.trans hbs')
  have hall : ∀ {ss : List Text} {bss bss' : List Bytes}, List.Forall₂ Carries ss bss →
      List.Forall₂ Carries ss bss' → bss = bss' := by
    intro ss bss bss' hbss hbss'
    induction hbss generalizing bss' with
    | nil => exact (List.forall₂_nil_left_iff.mp hbss').symm
    | cons hbs _ ih =>
      cases hbss' with
      | cons hbs' hrest => rw [hone hbs hbs', ih hrest]
  cases call with
  | put key value =>
    cases operation <;> cases operation' <;> try contradiction
    rw [hone h.1 h'.1, hone h.2.2 h'.2.2]
  | get key =>
    cases operation <;> cases operation' <;> try contradiction
    rw [hone h.1 h'.1]
  | delete key =>
    cases operation <;> cases operation' <;> try contradiction
    rw [hone h.1 h'.1]
  | batchPut keys values =>
    cases operation <;> cases operation' <;> try contradiction
    rw [hall h.1 h'.1, hall h.2.1 h'.2.1]
  | readKeyRange startKey endKey =>
    cases operation <;> cases operation' <;> try contradiction
    rw [hone h.1.1 h'.1.1, hone h.2.1 h'.2.1]

/-! ## The fields of a request -/

/-- The entries of the request as the server reads them. -/
def Call.data : Call → RequestData
  | .put key value =>
    [(text "operation", .string (text "put")), (text "key", .string (readBackText key)),
      (text "value", .string (readBackText value))]
  | .get key => [(text "operation", .string (text "get")), (text "key", .string (readBackText key))]
  | .delete key => [(text "operation", .string (text "delete")), (text "key", .string (readBackText key))]
  | .batchPut keys values =>
    [(text "operation", .string (text "batch_put")), (text "keys", .array ((keys.map readBackText).map .string)),
      (text "values", .array ((values.map readBackText).map .string))]
  | .readKeyRange startKey endKey =>
    [(text "operation", .string (text "read_key_range")), (text "start_key", .string (readBackText startKey)),
      (text "end_key", .string (readBackText endKey))]

/-- A list of texts is carried over text by text. -/
theorem readBack_texts (ss : List Text) :
    readBack (.array (ss.map .string)) = .array ((ss.map readBackText).map .string) := by
  rw [readBack, readBackItems_eq_map, List.map_map, List.map_map]
  rfl

/-- What the server sees of a request: the fields of the call, with the texts as carried over. -/
theorem readBack_request (call : Call) : readBack call.request = .object call.data := by
  cases call with
  | put key value => rfl
  | get key => rfl
  | delete key => rfl
  | readKeyRange startKey endKey => rfl
  | batchPut keys values =>
    rw [Call.request, Call.data, ← readBack_texts, ← readBack_texts]
    rfl

/-- The field that names the operation. -/
theorem lookup_operation (call : Call) : lookup call.data (text "operation") = some (.string call.name) := by
  cases call <;> rfl

/-- The request line is read as one JSON document. -/
theorem loads_request (call : Call) : loads (dumps call.request) = some (.object call.data) := by
  rw [OperationFactory.loads_request, readBack_request]

/-- A text of the call is the field of the request, in its encoding. -/
theorem fieldText_iff {data : RequestData} {field s : Text} (h : lookup data field = some (.string (readBackText s)))
    {bs : Bytes} : FieldText data field bs ↔ Carries s bs := by
  constructor
  · rintro ⟨s', hs', hbs⟩
    obtain rfl := Json.string.inj (Option.some.inj (h.symm.trans hs'))
    exact hbs
  · exact fun hbs => ⟨_, h, hbs⟩

/-- So is a key, which must not be empty. -/
theorem fieldKey_iff {data : RequestData} {field s : Text} (h : lookup data field = some (.string (readBackText s)))
    {bs : Bytes} : FieldKey data field bs ↔ Carries s bs ∧ bs ≠ [] := by
  constructor
  · rintro ⟨s', hs', hne, hbs⟩
    obtain rfl := Json.string.inj (Option.some.inj (h.symm.trans hs'))
    exact ⟨hbs, encodeUtf8_ne_nil hne hbs⟩
  · rintro ⟨hbs, hne⟩
    exact ⟨_, h, fun hnil => hne ((encodeUtf8_eq_nil_iff hbs).mpr hnil), hbs⟩

/-- So is each text of a list. -/
theorem fieldTexts_iff {data : RequestData} {field : Text} {ss : List Text}
    (h : lookup data field = some (.array ((ss.map readBackText).map .string))) {bss : List Bytes} :
    FieldTexts data field bss ↔ List.Forall₂ Carries ss bss := by
  constructor
  · rintro ⟨ss', hss', hbss⟩
    have heq : ss.map readBackText = ss' :=
      List.map_injective_iff.mpr (fun _ _ heq => Json.string.inj heq)
        (Json.array.inj (Option.some.inj (h.symm.trans hss')))
    rw [← heq, List.forall₂_map_left_iff] at hbss
    exact hbss
  · intro hbss
    refine ⟨_, h, ?_⟩
    rw [List.forall₂_map_left_iff]
    exact hbss

/-! ## What the server makes of a request -/

/-- The type of the operation in the request, as the server spells it. -/
def Call.typeName : Call → Text
  | .put _ _ => text "PUT"
  | .get _ => text "GET"
  | .delete _ => text "DELETE"
  | .batchPut _ _ => text "BATCH_PUT"
  | .readKeyRange _ _ => text "READ_KEY_RANGE"

/-- The fields of the request are those of the operation that the call asks for. -/
theorem fields_iff_asks {call : Call} {operation : RequestOperation} (htype : operation.typeName = call.typeName) :
    operation.Fields call.data ↔ call.Asks operation := by
  cases call with
  | put key value =>
    cases operation with
    | put k v =>
      refine (and_congr (fieldKey_iff (s := key) rfl) (fieldText_iff (s := value) rfl)).trans and_assoc
    | get _ | delete _ | batchPut _ _ | readKeyRange _ _ => exact absurd (show text _ = text "PUT" from htype) (by decide)
  | get key =>
    cases operation with
    | get k => exact fieldKey_iff rfl
    | put _ _ | delete _ | batchPut _ _ | readKeyRange _ _ => exact absurd (show text _ = text "GET" from htype) (by decide)
  | delete key =>
    cases operation with
    | delete k => exact fieldKey_iff rfl
    | put _ _ | get _ | batchPut _ _ | readKeyRange _ _ => exact absurd (show text _ = text "DELETE" from htype) (by decide)
  | batchPut keys values =>
    cases operation with
    | batchPut ks vs => exact and_congr (fieldTexts_iff rfl) (and_congr_left' (fieldTexts_iff rfl))
    | put _ _ | get _ | delete _ | readKeyRange _ _ => exact absurd (show text _ = text "BATCH_PUT" from htype) (by decide)
  | readKeyRange startKey endKey =>
    cases operation with
    | readKeyRange s e => exact and_congr (fieldKey_iff rfl) (fieldKey_iff rfl)
    | put _ _ | get _ | delete _ | batchPut _ _ => exact absurd (show text _ = text "READ_KEY_RANGE" from htype) (by decide)

/-- A call asks for an operation of its own kind only. -/
theorem typeName_of_asks {call : Call} {operation : RequestOperation} (h : call.Asks operation) :
    operation.typeName = call.typeName := by
  cases call <;> cases operation <;> first | rfl | exact absurd h not_false

variable [Python]

/-- The client writes its names in lower case, the server reads them in upper case. -/
theorem upper_name (call : Call) : upper call.name = call.typeName := by
  cases call <;> rfl

/-- The request follows the grammar of exactly the operation the call asks for. -/
theorem grammar_iff_asks {call : Call} {operation : RequestOperation} :
    Grammar (dumps call.request) operation ↔ call.Asks operation := by
  constructor
  · rintro ⟨requestData, name, hdata, hname, hupper, hfields⟩
    obtain rfl := Json.object.inj (Option.some.inj ((loads_request call).symm.trans hdata))
    obtain rfl := Json.string.inj (Option.some.inj ((lookup_operation call).symm.trans hname))
    exact (fields_iff_asks (hupper.symm.trans (upper_name call))).mp hfields
  · intro h
    have htype := typeName_of_asks h
    exact ⟨call.data, call.name, loads_request call, lookup_operation call, (upper_name call).trans htype.symm,
      (fields_iff_asks htype).mpr h⟩

/-- A call writes no request that Python reads in an unforeseen way. -/
theorem regular_request (call : Call) : Regular (dumps call.request) := by
  intro j hdata
  obtain rfl := Option.some.inj ((loads_request call).symm.trans hdata)
  refine ⟨call.data, rfl, fun value hvalue => ?_⟩
  obtain rfl := Option.some.inj ((lookup_operation call).symm.trans hvalue)
  refine ⟨call.name, rfl, fun hbatch => ?_⟩
  rw [upper_name] at hbatch
  cases call with
  | batchPut keys values => exact fun _ _ => ⟨_, _, rfl, rfl, fun _ => .inl ⟨trivial, trivial⟩⟩
  | put _ _ | get _ | delete _ | readKeyRange _ _ =>
    exact absurd (show text _ = text "BATCH_PUT" from hbatch) (by decide)

/-- **The server parses the operation the call asks for**, and no other one. -/
theorem fromJson_iff_asks {call : Call} {operation : RequestOperation} :
    OperationFactory.fromJson (dumps call.request) = .ok operation ↔ call.Asks operation :=
  (((OperationFactory.parsesGrammar_iff _).mpr (regular_request call)).accepts operation).trans grammar_iff_asks

/-- A request that asks for nothing is refused with a `ValueError`. -/
theorem fromJson_of_not_asks {call : Call} (h : ∀ operation, ¬call.Asks operation) :
    ∃ message, OperationFactory.fromJson (dumps call.request) = .error (.valueError message) :=
  ((OperationFactory.parsesGrammar_iff _).mpr (regular_request call)).refuses fun operation hgrammar =>
    h operation (grammar_iff_asks.mp hgrammar)

/-- **What the server makes of a request**: the operation that the call asks for, and a
`ValueError` if it asks for none. -/
theorem fromJson_request (call : Call) :
    (∀ operation, OperationFactory.fromJson (dumps call.request) = .ok operation ↔ call.Asks operation) ∧
      ((∀ operation, ¬call.Asks operation) →
        ∃ message, OperationFactory.fromJson (dumps call.request) = .error (.valueError message)) :=
  ⟨fun _ => fromJson_iff_asks, fromJson_of_not_asks⟩

end LogvineClient

end Logvine
