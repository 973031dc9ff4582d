import Logvine.Network.Client

/-!
# A range read over the connection

The server cuts the pairs of a range read into chunks by their number, whatever their
size, and the client gives a line up that is longer than its limit. So the pairs arrive
whole exactly if every line fits (`ArrivesWhole`, `Fits`).

The chunks are those of `controller.py`, 106–125, at most a hundred pairs each.
`StreamReader.readline` raises when its limit of 2^16 bytes is passed before a newline
(`client.py`, 43, on a reader opened with the default limit, 28), so the condition is in
printed lengths; `length_chunkLine` and `length_doneLine` compute them. How the bytes are
cut on the way does not matter (`Lines.readLines_eq_linesWithin`).
-/

namespace Logvine

open Json Controller LogvineClient

/-! ## How long the lines are -/

/-- The length of the printed pairs of a chunk, with the brackets around them. -/
def itemsSize : List (Text × Text) → Nat
  | [] => 2
  | [item] => stringSize item.1 + stringSize item.2 + 6
  | item :: items => stringSize item.1 + stringSize item.2 + 6 + itemsSize items

/-- The length of the line of a chunk, without the line end. -/
def chunkLineSize (startKey endKey : Bytes) (items : List (Text × Text)) (chunkId : Nat) : Nat :=
  132 + stringSize (decodeUtf8Lossy startKey) + stringSize (decodeUtf8Lossy endKey) + (Nat.log 10 chunkId + 1) +
    itemsSize items

/-- The length of the last line. -/
def doneLineSize (startKey endKey : Bytes) : Nat :=
  100 + stringSize (decodeUtf8Lossy startKey) + stringSize (decodeUtf8Lossy endKey)

/-- A pair takes its two strings, the brackets, the comma and the blank. -/
theorem length_dumps_pair (item : Text × Text) :
    (dumps (.array [.string item.1, .string item.2])).length = stringSize item.1 + stringSize item.2 + 4 := by
  have hseparator : (text ", ").length = 2 := rfl
  simp only [dumps, dumpsItems, separator, if_true, Bool.false_eq_true, if_false, List.length_cons, List.length_append,
    List.length_nil, length_dumpsString, hseparator]
  omega

/-- A list grows by one pair and a separator. -/
theorem length_dumpsItems_pairs (item : Text × Text) (items : List (Text × Text)) (isFirst : Bool) :
    (dumpsItems isFirst ((item :: items).map fun item => .array [.string item.1, .string item.2])).length + 1 =
      (separator isFirst).length + itemsSize (item :: items) := by
  have hseparator : (separator false).length = 2 := rfl
  induction items generalizing item isFirst with
  | nil =>
    rw [List.map_cons, List.map_nil, dumpsItems, dumpsItems, List.length_append, List.length_append, length_dumps_pair,
      itemsSize, List.length_singleton]
    omega
  | cons next items ih =>
    rw [List.map_cons, dumpsItems, List.length_append, List.length_append, length_dumps_pair, itemsSize]
    · have hnext := ih next false
      omega
    · intro h
      cases h

/-- The printed length of a chunk, from the texts in it. -/
theorem length_dumps_items (items : List (Text × Text)) :
    (dumps (.array (items.map fun item => .array [.string item.1, .string item.2]))).length = itemsSize items := by
  rw [dumps, List.length_cons]
  cases items with
  | nil => rfl
  | cons item items =>
    rw [length_dumpsItems_pairs]
    exact Nat.zero_add _

/-- An object grows by a key, a value, and what stands between them. -/
theorem length_dumpsEntries_cons (isFirst : Bool) (key : Text) (j : Json) (entries : List (Text × Json)) :
    (dumpsEntries isFirst ((key, j) :: entries)).length =
      (separator isFirst).length + stringSize key + 2 + (dumps j).length + (dumpsEntries false entries).length := by
  have hcolon : (text ": ").length = 2 := rfl
  simp only [dumpsEntries, List.length_append, length_dumpsString, hcolon]
  omega

theorem length_dumps_string (s : Text) : (dumps (.string s)).length = stringSize s := by rw [dumps, length_dumpsString]

/-- The entries that both kinds of lines begin with. -/
theorem length_dumps_head (startKey endKey : Bytes) (entries : List (Text × Json)) :
    (dumps (.object (RequestOperation.responseHead (.readKeyRange startKey endKey) ++ entries))).length =
      58 + stringSize (decodeUtf8Lossy startKey) + stringSize (decodeUtf8Lossy endKey) +
        (dumpsEntries false entries).length := by
  have hseparator : (separator true).length = 0 ∧ (separator false).length = 2 := by decide
  have hoperation : stringSize (text "operation") = 11 ∧ stringSize (text "read_key_range") = 16 := by decide
  have hkeys : stringSize (text "start_key") = 11 ∧ stringSize (text "end_key") = 9 := by decide
  rw [dumps, List.length_cons]
  simp only [RequestOperation.responseHead, List.cons_append, List.nil_append, length_dumpsEntries_cons,
    length_dumps_string]
  omega

/-- The length of the last line. -/
theorem length_doneLine (startKey endKey : Bytes) :
    (jsonBytes (RequestOperation.toStreamDone (.readKeyRange startKey endKey))).length =
      doneLineSize startKey endKey := by
  have hend : (dumpsEntries false [(text "status", .string (text "ok")),
      (text "stream_status", .string (text "done"))]).length = 42 := by decide
  rw [jsonBytes, asciiBytes, List.length_map, RequestOperation.toStreamDone, length_dumps_head, hend, doneLineSize]
  omega

/-- The length of the line of a chunk. -/
theorem length_chunkLine (startKey endKey : Bytes) (items : List (Text × Text)) (chunkId : Nat) :
    (jsonBytes (RequestOperation.toStreamResponse (.readKeyRange startKey endKey) items chunkId)).length =
      chunkLineSize startKey endKey items chunkId := by
  have hseparator : (separator false).length = 2 := rfl
  have hstatus : stringSize (text "status") = 8 ∧ stringSize (text "ok") = 4 := by decide
  have hstream : stringSize (text "stream_status") = 15 ∧ stringSize (text "in_progress") = 13 := by decide
  have hkeys : stringSize (text "chunk_id") = 10 ∧ stringSize (text "items") = 7 := by decide
  have hnumber : (dumps (.int chunkId)).length = Nat.log 10 chunkId + 1 := length_decimal chunkId
  have hclose : (dumpsEntries false []).length = 1 := rfl
  rw [jsonBytes, asciiBytes, List.length_map, RequestOperation.toStreamResponse, length_dumps_head, chunkLineSize]
  simp only [length_dumpsEntries_cons, length_dumps_string, hnumber, length_dumps_items]
  omega

/-! ## The client reads the stream -/

/-- The pairs arrive whole: the server cuts them into chunks, none of them empty, numbered
from 1 and followed by the end, and the client yields them all, in order, and then ends. -/
def ArrivesWhole [Python] (startKey endKey : Bytes) (items : List (Bytes × Bytes)) (texts : List (Text × Text))
    (pieces : List Bytes) : Prop :=
  (∃ chunks : List (List (Text × Text)), chunks.flatten = texts ∧ (∀ chunk ∈ chunks, chunk ≠ []) ∧
    streamResponse (.readKeyRange startKey endKey) none [] 1 items =
      chunks.mapIdx (fun i chunk => RequestOperation.toStreamResponse (.readKeyRange startKey endKey) chunk (i + 1)) ++
        [RequestOperation.toStreamDone (.readKeyRange startKey endKey)]) ∧
    readKeyRange (Lines.readLines newline lineLimit [] pieces) =
      (texts.map fun item => (.string item.1, .string item.2), .finished)

/-- What the server writes for the pairs, cut into pieces. -/
def Sent [Python] (startKey endKey : Bytes) (items : List (Bytes × Bytes)) (pieces : List Bytes) : Prop :=
  pieces.flatten = ((streamResponse (.readKeyRange startKey endKey) none [] 1 items).map jsonLine).flatten

/-- Every line fits into the limit of the client's reader. -/
def Fits (startKey endKey : Bytes) (texts : List (Text × Text)) : Prop :=
  doneLineSize startKey endKey ≤ lineLimit ∧
    ∀ i < chunkCount texts, chunkLineSize startKey endKey (chunk texts i) (i + 1) ≤ lineLimit

section

variable (startKey endKey : Bytes)

/-- The document of some pairs with their number. -/
def chunkDoc (numbered : List (Text × Text) × Nat) : Json :=
  RequestOperation.toStreamResponse (.readKeyRange startKey endKey) numbered.1 numbered.2

/-- The document at the end. -/
def doneDoc : Json := RequestOperation.toStreamDone (.readKeyRange startKey endKey)

/-- The lines of a stream without their line ends. -/
def bodies (chunks : List (List (Text × Text) × Nat)) : List Bytes :=
  chunks.map (fun numbered => jsonBytes (chunkDoc startKey endKey numbered)) ++ [jsonBytes (doneDoc startKey endKey)]

/-- A line within the limit is read, and its pairs are yielded. -/
theorem readKeyRange_within_cons (numbered : List (Text × Text) × Nat) (chunks : List (List (Text × Text) × Nat))
    (h : chunkLineSize startKey endKey numbered.1 numbered.2 ≤ lineLimit) :
    readKeyRange (Lines.linesWithin newline lineLimit (bodies startKey endKey (numbered :: chunks))) =
      (readKeyRange (Lines.linesWithin newline lineLimit (bodies startKey endKey chunks))).map
        (yielded numbered.1 ++ ·) id := by
  rw [bodies, List.map_cons, List.cons_append, Lines.linesWithin, chunkDoc, length_chunkLine, if_pos h]
  exact readKeyRange_chunk startKey endKey numbered.1 numbered.2 _

/-- When all lines fit, the client yields all items and finishes. -/
theorem readKeyRange_fits {chunks : List (List (Text × Text) × Nat)}
    (hchunks : ∀ c ∈ chunks, chunkLineSize startKey endKey c.1 c.2 ≤ lineLimit)
    (hdone : doneLineSize startKey endKey ≤ lineLimit) :
    readKeyRange (Lines.linesWithin newline lineLimit (bodies startKey endKey chunks)) =
      (chunks.flatMap fun c => yielded c.1, .finished) := by
  induction chunks with
  | nil =>
    rw [bodies, List.map_nil, List.nil_append, Lines.linesWithin, doneDoc, length_doneLine, if_pos hdone]
    exact readKeyRange_done startKey endKey _
  | cons numbered chunks ih =>
    rw [readKeyRange_within_cons startKey endKey numbered chunks (hchunks numbered List.mem_cons_self),
      ih fun c hc => hchunks c (List.mem_cons_of_mem _ hc)]
    rfl

/-- A line that is too long ends the range read with an exception. -/
theorem fits_of_finished {chunks : List (List (Text × Text) × Nat)}
    (h : (readKeyRange (Lines.linesWithin newline lineLimit (bodies startKey endKey chunks))).2 = .finished) :
    doneLineSize startKey endKey ≤ lineLimit ∧
      ∀ c ∈ chunks, chunkLineSize startKey endKey c.1 c.2 ≤ lineLimit := by
  induction chunks with
  | nil =>
    refine ⟨?_, fun c hc => absurd hc List.not_mem_nil⟩
    by_contra hlong
    rw [bodies, List.map_nil, List.nil_append, Lines.linesWithin, doneDoc, length_doneLine, if_neg hlong] at h
    cases h
  | cons numbered chunks ih =>
    by_cases hfit : chunkLineSize startKey endKey numbered.1 numbered.2 ≤ lineLimit
    · rw [readKeyRange_within_cons startKey endKey numbered chunks hfit] at h
      obtain ⟨hdone, hlater⟩ := ih h
      exact ⟨hdone, List.forall_mem_cons.mpr ⟨hfit, hlater⟩⟩
    · rw [bodies, List.map_cons, List.cons_append, Lines.linesWithin, chunkDoc, length_chunkLine, if_neg hfit] at h
      cases h

/-- No line has a newline before its end, as newlines are escaped. -/
theorem newline_notMem_bodies (chunks : List (List (Text × Text) × Nat)) :
    ∀ body ∈ bodies startKey endKey chunks, newline ∉ body := by
  intro body hbody
  rcases List.mem_append.mp hbody with hbody | hbody
  · obtain ⟨numbered, -, rfl⟩ := List.mem_map.mp hbody
    exact newline_notMem_jsonBytes _
  · rw [List.mem_singleton.mp hbody]
    exact newline_notMem_jsonBytes _

end

/-- The chunks of some pairs with their numbers. -/
def numbered (texts : List (Text × Text)) : List (List (Text × Text) × Nat) :=
  (List.range (chunkCount texts)).map fun i => (chunk texts i, i + 1)

/-- The condition, over the chunks with their numbers. -/
theorem fits_iff_numbered (startKey endKey : Bytes) (texts : List (Text × Text)) :
    Fits startKey endKey texts ↔ doneLineSize startKey endKey ≤ lineLimit ∧
      ∀ c ∈ numbered texts, chunkLineSize startKey endKey c.1 c.2 ≤ lineLimit := by
  simp only [Fits, numbered, List.forall_mem_map, List.mem_range]

/-- The server sends exactly these chunks. -/
theorem chunkDocs_eq_numbered (startKey endKey : Bytes) (texts : List (Text × Text)) :
    chunkDocs (.readKeyRange startKey endKey) 1 texts = (numbered texts).map (chunkDoc startKey endKey) := by
  rw [chunkDocs, numbered, List.map_map]
  apply List.map_congr_left
  intro i _
  rw [Nat.add_comm 1 i]
  rfl

/-- What is sent to the client, as one stream of lines. -/
theorem stream_bodies [Python] (startKey endKey : Bytes) {items : List (Bytes × Bytes)} {texts : List (Text × Text)}
    (h : Decoded items texts) :
    ((streamResponse (.readKeyRange startKey endKey) none [] 1 items).map jsonLine).flatten =
      Lines.stream newline (bodies startKey endKey (numbered texts)) := by
  rw [streamResponse_whole _ h, chunkDocs_eq_numbered, Lines.stream, bodies,
    List.flatMap_append, List.flatMap_map, List.map_append, List.flatten_append, List.map_map]
  rfl

/-- The texts of the pairs are read back as they are. -/
theorem yielded_decoded {items : List (Bytes × Bytes)} {texts : List (Text × Text)} (h : Decoded items texts) :
    yielded texts = texts.map fun item => (.string item.1, .string item.2) := by
  induction h with
  | nil => rfl
  | @cons item t items texts hdecode hrest ih =>
    rw [List.map_cons, ← ih, yielded, List.map_cons, readBackText_of_scalar (scalar_of_decodeUtf8 hdecode.1),
      readBackText_of_scalar (scalar_of_decodeUtf8 hdecode.2)]
    rfl

/-- The items of all chunks are the items sent. -/
theorem flatMap_yielded (texts : List (Text × Text)) :
    ((numbered texts).flatMap fun c => yielded c.1) = yielded texts := by
  rw [yielded, ← flatMap_chunks texts, List.map_flatMap, numbered, List.flatMap_map, flatMap_chunks]
  rfl

/-- What the server streams is cut into chunks that are not empty, numbered from one. -/
theorem chunks_of_stream [Python] (startKey endKey : Bytes) {items : List (Bytes × Bytes)} {texts : List (Text × Text)}
    (h : Decoded items texts) :
    ∃ chunks : List (List (Text × Text)), chunks.flatten = texts ∧ (∀ chunk ∈ chunks, chunk ≠ []) ∧
      streamResponse (.readKeyRange startKey endKey) none [] 1 items =
        chunks.mapIdx (fun i chunk => RequestOperation.toStreamResponse (.readKeyRange startKey endKey) chunk (i + 1)) ++
          [RequestOperation.toStreamDone (.readKeyRange startKey endKey)] := by
  refine ⟨(List.range (chunkCount texts)).map (chunk texts), flatMap_chunks texts, ?_, ?_⟩
  · intro c hc
    obtain ⟨i, hi, rfl⟩ := List.mem_map.mp hc
    exact List.ne_nil_of_length_pos (length_chunk (List.mem_range.mp hi)).1
  · rw [streamResponse_whole _ h, chunkDocs]
    congr 1
    apply List.ext_getElem
    · simp
    · intro i hi hi'
      simp [Nat.add_comm]

section

variable [Python] {startKey endKey : Bytes} {items : List (Bytes × Bytes)} {texts : List (Text × Text)}
  {pieces : List Bytes}

/-- However the stream is cut, its lines are read until one is too long. -/
theorem readLines_pieces (h : Decoded items texts) (hsent : Sent startKey endKey items pieces) :
    Lines.readLines newline lineLimit [] pieces =
      Lines.linesWithin newline lineLimit (bodies startKey endKey (numbered texts)) :=
  Lines.readLines_eq_linesWithin (newline_notMem_bodies startKey endKey _)
    ((List.nil_append _).trans (hsent.trans (stream_bodies startKey endKey h)))

/-- A line that does not fit raises in the client, so something is missing. -/
theorem fits_of_arrivesWhole (h : Decoded items texts) (hsent : Sent startKey endKey items pieces)
    (hwhole : ArrivesWhole startKey endKey items texts pieces) :
    Fits startKey endKey texts := by
  have hread := hwhole.2
  rw [readLines_pieces h hsent] at hread
  exact (fits_iff_numbered startKey endKey texts).mpr (fits_of_finished startKey endKey (congrArg Prod.snd hread))

/-- And when every line fits, however the bytes are cut, all of it arrives. -/
theorem arrivesWhole_of_fits (h : Decoded items texts) (hsent : Sent startKey endKey items pieces)
    (hfits : Fits startKey endKey texts) :
    ArrivesWhole startKey endKey items texts pieces := by
  obtain ⟨hdone, hchunks⟩ := (fits_iff_numbered startKey endKey texts).mp hfits
  refine ⟨chunks_of_stream startKey endKey h, ?_⟩
  rw [readLines_pieces h hsent, readKeyRange_fits startKey endKey hchunks hdone, flatMap_yielded, yielded_decoded h]

/-- **The pairs of a range read arrive whole exactly if every line fits.** -/
theorem arrivesWhole_iff_fits (h : Decoded items texts) (hsent : Sent startKey endKey items pieces) :
    ArrivesWhole startKey endKey items texts pieces ↔ Fits startKey endKey texts :=
  ⟨fits_of_arrivesWhole h hsent, arrivesWhole_of_fits h hsent⟩

end

/-- Pairs of ASCII texts, as the storage has them. -/
theorem decoded_ascii {texts : List (Text × Text)} (h : ∀ t ∈ texts, Ascii t.1 ∧ Ascii t.2) :
    Decoded (texts.map fun t => (asciiBytes t.1, asciiBytes t.2)) texts := by
  refine List.forall₂_map_left_iff.mpr (List.forall₂_same.mpr fun t ht => ?_)
  exact ⟨decodeUtf8_ascii (h t ht).1, decodeUtf8_ascii (h t ht).2⟩

/-- One more pair than a chunk takes. -/
def manyTexts : List (Text × Text) :=
  (List.range 101).map fun i => ([chr 'a', .ofNat _ (48 + i / 10), .ofNat _ (48 + i % 10)], text "1")

/-- What is written for them, in three pieces that are cut within the lines. -/
def manyPieces : List Bytes :=
  let written := ((@streamResponse .plain (.readKeyRange [97] [98]) none [] 1
    (manyTexts.map fun t => (asciiBytes t.1, asciiBytes t.2))).map jsonLine).flatten
  [written.take 50, (written.drop 50).take 1550, (written.drop 50).drop 1550]

/-- More pairs than one chunk takes, in pieces cut within the lines, arrive whole. -/
theorem arrivesWhole_iff_fits_short :
    @ArrivesWhole .plain [97] [98] (manyTexts.map fun t => (asciiBytes t.1, asciiBytes t.2)) manyTexts manyPieces := by
  have hsent : @Sent .plain [97] [98] (manyTexts.map fun t => (asciiBytes t.1, asciiBytes t.2)) manyPieces := by
    show manyPieces.flatten = _
    rw [manyPieces]
    simp only [List.flatten_cons, List.flatten_nil, List.append_nil, List.take_append_drop]
  have hfits : Fits [97] [98] manyTexts := ⟨by decide +kernel, by decide +kernel⟩
  exact (@arrivesWhole_iff_fits .plain _ _ _ _ _ (decoded_ascii (by decide +kernel)) hsent).mpr hfits

/-- A value that is printed as long as the limit does not fit, also on its own. -/
theorem not_fits_of_large (startKey endKey : Bytes) (key : Text) {value : Text} (h : lineLimit ≤ stringSize value) :
    ¬Fits startKey endKey [(key, value)] := by
  rintro ⟨-, hlines⟩
  have hcount : 0 < chunkCount [(key, value)] := lt_chunkCount.mpr Nat.zero_lt_one
  have hchunk : chunk [(key, value)] 0 = [(key, value)] := rfl
  have hline := hlines 0 hcount
  rw [hchunk, chunkLineSize, itemsSize] at hline
  simp only at hline
  omega

theorem stringSize_replicate (n : Nat) : stringSize (List.replicate n (chr 'a')) = n + 2 := by
  have hsize : escapeSize (chr 'a') = 1 := by decide
  rw [stringSize, List.map_replicate, hsize, List.sum_replicate, smul_eq_mul, Nat.mul_one]

theorem decodeUtf8_replicate (n : Nat) :
    decodeUtf8 (List.replicate n 97) = some (List.replicate n (chr 'a')) := by
  have hbytes : asciiBytes (List.replicate n (chr 'a')) = List.replicate n 97 := List.map_replicate
  rw [← hbytes]
  apply decodeUtf8_ascii
  intro c hc
  rw [List.eq_of_mem_replicate hc]
  decide

/-- A value of 2 ^ 16 bytes does not arrive, in however few pieces. -/
theorem arrivesWhole_fails :
    ¬∀ (_ : Python) (startKey endKey : Bytes) (items : List (Bytes × Bytes)) (texts : List (Text × Text))
        (pieces : List Bytes), Decoded items texts → Sent startKey endKey items pieces →
          ArrivesWhole startKey endKey items texts pieces := by
  intro h
  have hsize : lineLimit ≤ stringSize (List.replicate lineLimit (chr 'a')) := by
    rw [stringSize_replicate]
    exact Nat.le_add_right _ _
  have hdecoded : Decoded [([97], List.replicate lineLimit 97)] [(text "a", List.replicate lineLimit (chr 'a'))] :=
    .cons ⟨by decide, decodeUtf8_replicate _⟩ .nil
  have hwhole := h .plain [97] [98] _ _ _ hdecoded List.flatten_singleton
  exact not_fits_of_large [97] [98] (text "a") hsize
    (@fits_of_arrivesWhole .plain [97] [98] _ _ _ hdecoded List.flatten_singleton hwhole)

end Logvine
