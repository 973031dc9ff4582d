import Logvine.Base.BufferQueue
import Logvine.Storage.EngineSteps

/-!
# The records in the memtable

The buffers of a memtable hold the records that have been applied to it. `Fills` says
which: the memtable is a queue of buffers (`BufferQueue`) of these records, the offset
it keeps is the offset of the queue.

- `Fills.putSection`, `Fills.delete`, `Fills.batchSection`, `Fills.rotateUnlocked`,
  `Fills.clearFrozen`: each section of the engine is an operation of the queue;
- `Fills.layer`: what the memtable answers is what its records say;
- `flushNext_queue`: what a step of a flush does to the queue and to the log.

What a crash leaves to be replayed and what a cut of the log may take are questions about
these records and their offsets. They are answered for `BufferQueue` once; this module says
that the memtable is one.
-/

namespace Logvine

open Layer

namespace LSMStorageEngine

universe u

variable {ε : Type u} {record : ε → LogRecord} {m : MemTable} {q : BufferQueue ε}

/-- What the records of some elements say about keys. -/
def saying (record : ε → LogRecord) (es : List ε) : Layer Bytes Bytes := logLayer (es.map record)

theorem saying_append (record : ε → LogRecord) (es es' : List ε) :
    saying record (es ++ es') = above (saying record es') (saying record es) := by
  rw [saying, List.map_append, logLayer_append]
  rfl

theorem saying_singleton (record : ε → LogRecord) (x : ε) : saying record [x] = recordLayer (record x) :=
  logLayer_singleton _

theorem saying_flatMap (record : ε → LogRecord) (frozen : List (List ε × Nat)) :
    resolve (frozen.map fun p => saying record p.1).reverse = saying record (frozen.flatMap Prod.fst) := by
  -- the newest buffer is read first and holds the last records
  induction frozen with
  | nil => rfl
  | cons p rest ih =>
    rw [List.map_cons, List.reverse_cons, resolve_append, resolve_singleton, ih, List.flatMap_cons, saying_append]

theorem itemsLayer_eq_logLayer (items : List (Bytes × Bytes)) :
    itemsLayer items = logLayer (items.map fun item => ⟨OperationType.put, item.1, item.2⟩) := by
  induction items using List.reverseRecOn with
  | nil => rfl
  | append_singleton items item ih =>
    rw [List.map_append, logLayer_append, ← ih, List.map_singleton, logLayer_singleton, itemsLayer,
      List.reverse_append]
    exact Reading.assoc_cons_eq item items.reverse

/-- The memtable holds the records of a queue of buffers. -/
structure Fills (record : ε → LogRecord) (m : MemTable) (q : BufferQueue ε) : Prop where
  data : m.data.get? = saying record q.active
  queue : m.frozenQueue.map (fun frozen => (frozen.1.get?, frozen.2)) =
    q.frozen.map fun p => (saying record p.1, p.2)
  offset : m.maxWalOffset = q.offset

/-- **The memtable answers** as its records say. -/
theorem Fills.layer (h : Fills record m q) : m.layer = saying record q.contents := by
  have hqueue := congrArg (List.map Prod.fst) h.queue
  rw [List.map_map, List.map_map] at hqueue
  have hfrozen : m.frozenLayers = q.frozen.map fun p => saying record p.1 := hqueue
  rw [MemTable.layer, h.data, hfrozen, saying_flatMap, BufferQueue.contents, saying_append]

theorem fills_init (record : ε → LogRecord) (maxSize : Int) : Fills record (.init maxSize) .empty := ⟨rfl, rfl, rfl⟩

theorem Fills.setMaxWalOffset (h : Fills record m q) (offset : Nat) :
    Fills record (m.setMaxWalOffset offset) (q.reach (max q.offset offset)) :=
  ⟨h.data, h.queue, by rw [← h.offset]; rfl⟩

/-- A put and a deletion are pushes of their records. -/
theorem Fills.putUnlocked (h : Fills record m q) {key value : Bytes} {x : ε}
    (hx : recordLayer (record x) = MemTable.entry key value) : Fills record (m.putUnlocked key value) (q.push [x]) := by
  refine ⟨?_, h.queue, h.offset⟩
  show (m.data.set key value).get? = saying record (q.active ++ [x])
  rw [MemTable.get?_set_eq, h.data, saying_append, saying_singleton, hx]

theorem Fills.rotateUnlocked (h : Fills record m q) : Fills record m.rotateUnlocked q.freeze := by
  refine ⟨rfl, ?_, rfl⟩
  show (m.frozenQueue ++ [(m.data, m.maxWalOffset)]).map _ = (q.frozen ++ [(q.active, q.offset)]).map _
  rw [List.map_append, List.map_append, h.queue, List.map_singleton, List.map_singleton, h.data, h.offset]

/-- A put freezes the buffer if its entry has filled it. -/
theorem Fills.putSection (h : Fills record m q) {key value : Bytes} {x : ε}
    (hx : recordLayer (record x) = MemTable.entry key value) (offset : Nat) :
    Fills record (LSMStorageEngine.putSection m key value offset)
      (if ((m.putUnlocked key value).setMaxWalOffset offset).isFull then
        ((q.push [x]).reach (max q.offset offset)).freeze
      else (q.push [x]).reach (max q.offset offset)) := by
  have hput := (h.putUnlocked hx).setMaxWalOffset offset
  unfold LSMStorageEngine.putSection
  dsimp only
  split
  · exact hput.rotateUnlocked
  · exact hput

/-- A batch freezes the buffer if its entries would fill it, then pushes its records. -/
theorem Fills.batchSection (h : Fills record m q) {items : List (Bytes × Bytes)} {es : List ε}
    (hes : es.map record = items.map fun item => ⟨OperationType.put, item.1, item.2⟩) (inputSize : Int)
    (lastOffset : Nat) :
    Fills record (LSMStorageEngine.batchSection m inputSize items lastOffset)
      (((if m.batchWouldExceed inputSize then q.freeze else q).push es).reach lastOffset) := by
  have hbefore : Fills record (beforeBatch m inputSize) (if m.batchWouldExceed inputSize then q.freeze else q) := by
    unfold beforeBatch
    split
    · exact h.rotateUnlocked
    · exact h
  -- the offset is set, not raised: a batch may lower what the buffer has reached
  obtain ⟨hdata, hqueue, hoffset⟩ := batchSection_spec m inputSize items lastOffset
  refine ⟨?_, ?_, hoffset⟩
  · rw [hdata, get?_setAll_eq, hbefore.data, itemsLayer_eq_logLayer, ← hes]
    exact (saying_append ..).symm
  · rw [hqueue]
    exact hbefore.queue

theorem Fills.clearFrozen (h : Fills record m q) : Fills record m.clearFrozen q.drop := by
  have hactive : q.drop.active = q.active ∧ q.drop.offset = q.offset := by
    unfold BufferQueue.drop
    split <;> exact ⟨rfl, rfl⟩
  refine ⟨h.data.trans (by rw [hactive.1]), ?_, h.offset.trans hactive.2.symm⟩
  rw [BufferQueue.frozen_drop, MemTable.clearFrozen, List.map_tail, List.map_tail, h.queue]

theorem Fills.cut (h : Fills record m q) : Fills record m q.cut := ⟨h.data, h.queue, h.offset⟩

/-- The oldest buffer of the memtable is that of the queue. -/
theorem Fills.frozen_of_queue (h : Fills record m q) {frozen : Buffer} {offset : Nat} {later : List (Buffer × Nat)}
    (hqueue : m.frozenQueue = (frozen, offset) :: later) :
    ∃ es rest, q.frozen = (es, offset) :: rest ∧ frozen.get? = saying record es := by
  have hmap := h.queue
  rw [hqueue, List.map_cons] at hmap
  cases hq : q.frozen with
  | nil =>
    rw [hq] at hmap
    cases hmap
  | cons p rest =>
    rw [hq, List.map_cons] at hmap
    obtain ⟨hhead, -⟩ := List.cons.inj hmap
    obtain ⟨hlayer, hoffset⟩ := Prod.mk.inj hhead
    exact ⟨p.1, rest, by rw [show offset = p.2 from hoffset], hlayer⟩

/-- Replaying a log pushes its records. -/
theorem Fills.replay {es : List WalEntry} {q : BufferQueue WalEntry} (h : Fills Prod.fst m q) :
    Fills Prod.fst (es.foldl replayEntry m) ((q.push es).reach (es.foldl (fun n x => max n x.2) q.offset)) := by
  -- each record pushes one element, and what was pushed before stays in front
  induction es generalizing m q with
  | nil =>
    rw [BufferQueue.push, List.append_nil]
    exact h
  | cons x es ih =>
    have hstep : Fills Prod.fst (replayEntry m x) ((q.push [x]).reach (max q.offset x.2)) := by
      refine ⟨?_, ?_, ?_⟩
      · show _ = saying Prod.fst (q.active ++ [x])
        rw [get?_replayEntry, h.data, saying_append, saying_singleton]
      · rw [frozenQueue_replayEntry]
        exact h.queue
      · rw [maxWalOffset_replayEntry, h.offset]
        rfl
    have hrest := ih hstep
    have hpush : ((q.push [x]).reach (max q.offset x.2)).push es = (q.push (x :: es)).reach (max q.offset x.2) := by
      simp only [BufferQueue.push, BufferQueue.reach, List.append_assoc, List.singleton_append]
    rw [hpush] at hrest
    exact hrest

/-! ## Flushes -/

/-- The offset a flush is about to cut the log at. -/
def FlushPc.floor : FlushPc → Nat
  | .cleared walOffset => walOffset
  | _ => 0

/-- What a flush under way has read from the queue. -/
def FlushHead (q : BufferQueue ε) : FlushPc → Prop
  | .collected _ => q.frozen ≠ []
  | .writing _ walOffset | .written _ walOffset | .described _ walOffset | .added walOffset | .saved walOffset
  | .recorded walOffset => ∃ es rest, q.frozen = (es, walOffset) :: rest
  | _ => True

/-- What was read stays true when the queue is added to. -/
theorem FlushHead.later {q q' : BufferQueue ε} {pc : FlushPc} (h : FlushHead q pc) (hfront : q.frozen <+: q'.frozen) :
    FlushHead q' pc := by
  obtain ⟨more, hmore⟩ := hfront
  cases pc with
  | collected items =>
    intro hnil
    rw [hnil] at hmore
    exact h (List.append_eq_nil_iff.mp hmore).1
  | writing items walOffset | written sstable walOffset | described metadata walOffset | added walOffset
  | saved walOffset | recorded walOffset =>
    obtain ⟨es, rest, hq⟩ := h
    exact ⟨es, rest ++ more, by rw [← hmore, hq, List.cons_append]⟩
  | idle | cleared walOffset | returned | raised err => trivial

section Flush

variable {L : Type} [Log L] {e : LSMStorageEngine L} {pc : FlushPc}

/-- **What a step of a flush does to the buffers**: nothing, or it drops the oldest one,
or it cuts the log at the floor. -/
theorem flushNext_queue (hfills : Fills record e.memtable q) (hhead : FlushHead q pc) (hfloor : q.floor = pc.floor)
    (nowMs : Nat) :
    ((flushNext nowMs e pc).1.memtable = e.memtable ∧ (flushNext nowMs e pc).1.wal = e.wal ∧
        FlushHead q (flushNext nowMs e pc).2 ∧ q.floor = (flushNext nowMs e pc).2.floor) ∨
      (∃ es walOffset rest, q.frozen = (es, walOffset) :: rest ∧ pc = .recorded walOffset ∧
        flushNext nowMs e pc = ({ e with memtable := e.memtable.clearFrozen }, .cleared walOffset)) ∨
      ∃ walOffset, pc = .cleared walOffset ∧
        flushNext nowMs e pc = ({ e with wal := Log.truncateUpto e.wal walOffset }, .returned) := by
  cases pc with
  | idle =>
    left
    rw [flushNext]
    split
    · exact ⟨rfl, rfl, trivial, hfloor⟩
    · next item items hitems =>
      obtain ⟨frozen, rest, hqueue, -⟩ := oldest_of_items hitems
      obtain ⟨es, rest', hq, -⟩ := hfills.frozen_of_queue hqueue
      exact ⟨rfl, rfl, by rw [FlushHead, hq]; exact List.cons_ne_nil _ _, hfloor⟩
  | collected items =>
    left
    refine ⟨rfl, rfl, ?_, hfloor⟩
    cases hqueue : e.memtable.frozenQueue with
    | nil =>
      have hmap := hfills.queue
      rw [hqueue] at hmap
      exact absurd (List.map_eq_nil_iff.mp hmap.symm) hhead
    | cons frozen later =>
      obtain ⟨es, rest, hq, -⟩ := hfills.frozen_of_queue hqueue
      exact ⟨es, rest, by rw [hq, MemTable.getMaxWalOffsetFrozen, hqueue]⟩
  | writing items walOffset =>
    left
    rw [flushNext]
    rcases e.tables.write (.init (sstablePath e.storagePath nowMs) 0) items with ⟨t, err | sstable⟩
    · exact ⟨rfl, rfl, trivial, hfloor⟩
    · exact ⟨rfl, rfl, hhead, hfloor⟩
  | written sstable walOffset =>
    left
    rw [flushNext]
    rcases e.tables.buildMetadata sstable 0 nowMs with err | metadata
    · exact ⟨rfl, rfl, trivial, hfloor⟩
    · exact ⟨rfl, rfl, hhead, hfloor⟩
  | described metadata walOffset | added walOffset | saved walOffset => exact .inl ⟨rfl, rfl, hhead, hfloor⟩
  | recorded walOffset =>
    obtain ⟨es, rest, hq⟩ := hhead
    exact .inr (.inl ⟨es, walOffset, rest, hq, rfl, rfl⟩)
  | cleared walOffset => exact .inr (.inr ⟨walOffset, rfl, rfl⟩)
  | returned | raised err => exact .inl ⟨rfl, rfl, trivial, hfloor⟩

end Flush

end LSMStorageEngine

end Logvine
