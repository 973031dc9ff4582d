import Logvine.Storage.EngineRun

/-!
# The values that can be read

An engine as a map from keys to the values that can be read. The value that marks deletions
is none of them, whoever writes it.

- `Op.liveEffect`: what a write makes of the map;
- `Holds`: reads of an engine are reads of the map;
- `holds_of_live`: with readable tables it is enough that the values agree key by key.

`get` raises `KeyError` for the mark as for a missing key (`engine.py`, 186–187), and a
range read leaves it out (219 and 229).
-/

namespace Logvine

open Layer

/-- The values that can be read, by key. -/
abbrev Contents := Bytes → Option Bytes

namespace LSMStorageEngine

/-- What a write makes of the values that can be read; the value that marks deletions
cannot be. -/
def Op.liveEffect (m : Contents) : Op → Contents
  | .put key value => Function.update m key (Reading.live (some value))
  | .delete key => Function.update m key none
  | .batchPut keys values =>
    (keys.zip values).foldl (fun m item => Function.update m item.1 (Reading.live (some item.2))) m
  | _ => m

/-- Items written over a layer are seen as the map with those keys updated. -/
theorem live_above_items_eq {f : Layer Bytes Bytes} {m : Contents} (h : ∀ k, Reading.live (f k) = m k)
    (items : List (Bytes × Bytes)) (k : Bytes) :
    Reading.live (above (itemsLayer items) f k) =
      items.foldl (fun (m : Contents) item => Function.update m item.1 (Reading.live (some item.2))) m k := by
  induction items generalizing f m with
  | nil => exact h k
  | cons item items ih =>
    have hsplit : above (itemsLayer (item :: items)) f =
        above (itemsLayer items) (above (MemTable.entry item.1 item.2) f) := by
      rw [← above_assoc]
      congr 1
      funext k'
      rw [itemsLayer, List.reverse_cons, assoc_append, assoc_cons, assoc_nil]
      rfl
    rw [hsplit, List.foldl_cons]
    exact ih fun k' => live_above_entry h item.1 item.2 k'

/-- What an accepted write does to the values that can be read. -/
theorem live_written_eq {f : Layer Bytes Bytes} {m : Contents} (h : ∀ k, Reading.live (f k) = m k) {op : Op}
    (k : Bytes) : Reading.live (above op.written f k) = op.liveEffect m k := by
  cases op with
  | put key value => exact live_above_entry h key value k
  | delete key =>
    have htombstone : Reading.live (some tombstone) = none := rfl
    rw [Op.written, live_above_entry h, htombstone, Op.liveEffect]
  | batchPut keys values => exact live_above_items_eq h (keys.zip values) k
  | rotate | flush nameMs createdMs | compact nowNs createdMs => exact h k

/-- Reads of the engine are reads of the map. -/
structure Holds {L : Type} (e : LSMStorageEngine L) (m : Contents) : Prop where
  get : ∀ key, e.get key = (m key).elim (.error (.keyError key)) .ok
  readKeyRange : ∀ startKey endKey, ∃ items, e.readKeyRange startKey endKey = .ok items ∧ Ascending items ∧
    ∀ key value, (key, value) ∈ items ↔ startKey ≤ key ∧ key < endKey ∧ m key = some value

/-- A sound engine whose view is the map answers all reads as the map does. -/
theorem holds_of_live {L : Type} {e : LSMStorageEngine L} {m : Contents} (h : Sound e)
    (hlive : ∀ key, Reading.live (view e key) = m key) : e.Holds m := by
  refine ⟨fun key => ?_, fun startKey endKey => ?_⟩
  · have hget : e.get key = _ := Reading.get_eq h.readable e.memtable key
    rw [hget, show Reading.view e.memtable e.tables key = view e key from rfl, hlive]
    cases m key <;> rfl
  · obtain ⟨items, hread, hasc, hitems⟩ := readKeyRange_of_sound h startKey endKey
    refine ⟨items, hread, hasc, fun key value => ?_⟩
    rw [hitems, get_of_sound h, hlive]

end LSMStorageEngine

end Logvine
