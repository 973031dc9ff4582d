import Logvine.Storage.Reading

/-!
# The reads step by step

The reads of the engine as readers that open one table file after the other, from
one snapshot of the manifest: the index of a table first, then the file again for
each value.

- `result_steps`: taken in one go, they are the plain reads;
- `answer_congr`: what a read answers depends on the tables only through what
  these answer for the keys asked that the memtable does not answer;
- `robust_steps`: a read opens listed files only, and it does not notice a missing
  file that held none of the keys asked.
-/

namespace Logvine

open Layer SSTableManager Reads

namespace Reading

/-- A reader of table files that may raise. -/
abbrev Reader (α : Type) := ExceptT Error (Reads Path (Option Bytes)) α

/-- A fresh table object and `_load_index`. -/
def indexSteps (sstableMeta : SSTableMeta) : Reader SSTable := do
  let content ← readFile sstableMeta.path
  return (metadataToSstable sstableMeta).ensureIndex fun _ => content

/-- `SSTable.get` once the index is loaded. -/
def valueSteps (sstable : SSTable) (key : Bytes) : Reader (Option Bytes) :=
  match sstable.index.get? key with
  | none => pure none
  | some offset => do
    let content ← readFile sstable.path
    let value ← settled (SSTable.readValue (fun _ => content) sstable.path offset)
    return some value

/-- The loop of `SSTableManager.get`. -/
def lookupSteps (key : Bytes) : List SSTableMeta → Reader (Option Bytes)
  | [] => pure none
  | sstableMeta :: rest => do
    let minKey ← settled (fromHex sstableMeta.minKeyHex)
    let maxKey ← settled (fromHex sstableMeta.maxKeyHex)
    if key < minKey ∨ maxKey < key then lookupSteps key rest
    else
      let sstable ← indexSteps sstableMeta
      let value ← valueSteps sstable key
      match value with
      | some value => pure (some value)
      | none => lookupSteps key rest

/-- The memtable's value of a key, else that of the tables. -/
def storedSteps (memtable : MemTable) (manifest : Manifest) (key : Bytes) : Reader (Option Bytes) :=
  match memtable.get key with
  | some value => pure (some value)
  | none => lookupSteps key ((iterSstableMetadata manifest none true).map Prod.snd)

/-- The loop of `SSTable.range_scan`. -/
def itemsSteps (sstable : SSTable) : List Bytes → Reader (List (Bytes × Bytes))
  | [] => pure []
  | key :: keys => do
    let value ← valueSteps sstable key
    let items ← itemsSteps sstable keys
    return match value with
      | none => items
      | some value => (key, value) :: items

/-- The loop of `read_key_range` over the tables. -/
def collectSteps (startKey endKey : Bytes) :
    List SSTableMeta → List Bytes × Buffer → Reader (List Bytes × Buffer)
  | [], acc => pure acc
  | sstableMeta :: rest, acc => do
    let sstable ← indexSteps sstableMeta
    let items ← itemsSteps sstable (SSTable.keysInRange sstable.index startKey endKey)
    collectSteps startKey endKey rest (items.foldl collect acc)

/-- A read of the engine. -/
inductive Query where
  | get (key : Bytes)
  | range (startKey endKey : Bytes)
deriving DecidableEq, Repr

namespace Query

/-- What it returns. -/
abbrev Answer : Query → Type
  | get _ => Bytes
  | range _ _ => List (Bytes × Bytes)

/-- The keys it asks for. -/
def Asks : Query → Bytes → Prop
  | get key, k => k = key
  | range startKey endKey, k => startKey ≤ k ∧ k < endKey

/-- The keys it asks the tables for: those the memtable does not answer. -/
def AsksTables (memtable : MemTable) (q : Query) (k : Bytes) : Prop := q.Asks k ∧ memtable.layer k = none

/-- What it answers when nothing else happens. -/
def answer (memtable : MemTable) (t : Tables) : (q : Query) → Except Error q.Answer
  | get key => Reading.get memtable t key
  | range startKey endKey => readKeyRange memtable t startKey endKey

/-- The read, from the manifest it looked at. -/
def steps (memtable : MemTable) (manifest : Manifest) : (q : Query) → Reader q.Answer
  | get key => do
    let value ← storedSteps memtable manifest key
    settled (unlessDeleted key value)
  | range startKey endKey => do
    let metas ← settled
      (overlapping startKey endKey ((iterSstableMetadata manifest none true).map Prod.snd))
    let acc ← collectSteps startKey endKey metas
      ((memtable.getRange startKey endKey).entries.foldl collectMemtable ([], .empty))
    return acc.2.sortedItems

end Query

/-! ## In one go -/

section Result

variable (files : Files)

/-- With the files held still, the steps of `_load_index` load the index. -/
theorem result_indexSteps (m : SSTableMeta) :
    result files (indexSteps m) = .ok ((metadataToSstable m).ensureIndex files) := rfl

/-- Those of reading a value read it. -/
theorem result_valueSteps (sstable : SSTable) (key : Bytes) :
    result files (valueSteps sstable key) = match sstable.index.get? key with
      | none => .ok none
      | some offset => (SSTable.readValue files sstable.path offset).map some := by
  rw [valueSteps]
  cases sstable.index.get? key with
  | none => rfl
  | some offset =>
    simp only [result_bind, result_settled, result_pure]
    show (SSTable.readValue files sstable.path offset >>= fun value => Except.ok (some value)) = _
    cases SSTable.readValue files sstable.path offset <;> rfl

/-- On a freshly loaded index this is the whole of `SSTable.get`. -/
theorem result_valueSteps_ensureIndex (sstable : SSTable) (key : Bytes) :
    result files (valueSteps (sstable.ensureIndex files) key) = sstable.get files key := by
  rw [result_valueSteps, SSTable.path_ensureIndex]
  rfl

/-- And those of a lookup look it up. -/
theorem result_lookupSteps (key : Bytes) (metas : List SSTableMeta) :
    result files (lookupSteps key metas) = lookup files key metas := by
  induction metas with
  | nil => rfl
  | cons m metas ih =>
    rw [lookupSteps, lookup]
    simp only [result_bind, result_settled]
    refine congrArg _ (funext fun minKey => congrArg _ (funext ?_))
    intro maxKey
    split
    · exact ih
    · rw [result_bind, result_indexSteps]
      show (result files (valueSteps ((metadataToSstable m).ensureIndex files) key >>= _)) = _
      rw [result_bind, result_valueSteps_ensureIndex]
      refine congrArg _ (funext ?_)
      intro value
      cases value with
      | none => exact ih
      | some value => rfl

/-- With its index loaded, a table is asked for one key after the other. -/
theorem result_itemsSteps {sstable : SSTable} (hloaded : sstable.ensureIndex files = sstable)
    (keys : List Bytes) : result files (itemsSteps sstable keys) = sstable.readItems files keys := by
  induction keys with
  | nil => rfl
  | cons key keys ih =>
    have hvalue : result files (valueSteps sstable key) = sstable.get files key := by
      rw [← result_valueSteps_ensureIndex, hloaded]
    rw [itemsSteps, SSTable.readItems]
    simp only [result_bind, hvalue, ih]
    rfl

/-- The steps of a range scan of one table. -/
theorem readItems_rangeScan (m : SSTableMeta) (startKey endKey : Bytes) :
    result files (itemsSteps ((metadataToSstable m).ensureIndex files)
        (SSTable.keysInRange ((metadataToSstable m).ensureIndex files).index startKey endKey)) =
      (metadataToSstable m).rangeScan files startKey endKey := by
  by_cases hempty : ((metadataToSstable m).ensureIndex files).index.entries.isEmpty
  · -- nothing is asked of a table without keys
    have hnil : SSTable.keysInRange ((metadataToSstable m).ensureIndex files).index startKey endKey = [] := by
      rw [SSTable.keysInRange, Dict.sortedKeys, Dict.keys, List.isEmpty_iff.mp hempty]
      rfl
    rw [SSTable.rangeScan, hnil]
    rfl
  · exact result_itemsSteps files (if_neg hempty) _

/-- The steps of collecting the range from all tables. -/
theorem result_collectSteps (startKey endKey : Bytes) (metas : List SSTableMeta)
    (acc : List Bytes × Buffer) :
    result files (collectSteps startKey endKey metas acc) =
      collectTables files startKey endKey (metas.map metadataToSstable) acc := by
  induction metas generalizing acc with
  | nil => rfl
  | cons m metas ih =>
    rw [collectSteps, List.map_cons, collectTables, result_bind, result_indexSteps]
    show (result files (itemsSteps ((metadataToSstable m).ensureIndex files) _ >>= _)) = _
    rw [result_bind, readItems_rangeScan]
    exact congrArg _ (funext fun items => ih _)

/-- **In one go** the reads are the plain ones. -/
theorem result_steps (memtable : MemTable) (manifest : Manifest) (q : Query) :
    result files (q.steps memtable manifest) = q.answer memtable ⟨files, manifest⟩ := by
  -- a lookup goes through `stored`, a range read through `collectTables`
  cases q with
  | get key =>
    have hstored : result files (storedSteps memtable manifest key) =
        stored memtable ⟨files, manifest⟩ key := by
      rw [storedSteps, stored]
      cases memtable.get key with
      | some value => rfl
      | none => exact result_lookupSteps files key _
    show result files (storedSteps memtable manifest key >>= fun value =>
      settled (unlessDeleted key value)) = Reading.get memtable ⟨files, manifest⟩ key
    rw [result_bind, hstored]
    rfl
  | range startKey endKey =>
    show result files (settled (overlapping startKey endKey _) >>= fun metas =>
      collectSteps startKey endKey metas _ >>= fun acc => pure acc.2.sortedItems) = _
    rw [result_bind, result_settled]
    show _ = readKeyRange memtable ⟨files, manifest⟩ startKey endKey
    rw [readKeyRange, getOverlappingSstables]
    cases overlapping startKey endKey ((iterSstableMetadata manifest none true).map Prod.snd) with
    | error e => rfl
    | ok metas =>
      show result files (collectSteps startKey endKey metas _ >>= _) = _
      rw [result_bind, result_collectSteps]
      rfl

end Result

/-! ## What an answer depends on -/

/-- The tables answer alike for the keys asked of them. -/
theorem answer_congr {t t' : Tables} (hr : t.Readable) (hr' : t'.Readable) (memtable : MemTable)
    (q : Query) (h : ∀ k, q.AsksTables memtable k → t'.layer k = t.layer k) :
    q.answer memtable t' = q.answer memtable t := by
  have hview : ∀ k, q.Asks k → view memtable t' k = view memtable t k := by
    intro k hk
    rw [view, view]
    cases hmemory : memtable.layer k with
    | some value => rw [above_of_some hmemory, above_of_some hmemory]
    | none => rw [above_of_none hmemory, above_of_none hmemory, h k ⟨hk, hmemory⟩]
  cases q with
  | get key =>
    show Reading.get memtable t' key = Reading.get memtable t key
    rw [get_eq hr', get_eq hr, hview key rfl]
  | range startKey endKey =>
    obtain ⟨items, hitems, hasc, hspec⟩ := readKeyRange_spec hr memtable startKey endKey
    obtain ⟨items', hitems', hasc', hspec'⟩ := readKeyRange_spec hr' memtable startKey endKey
    show readKeyRange memtable t' startKey endKey = readKeyRange memtable t startKey endKey
    rw [hitems, hitems', hasc'.ext hasc fun k => ?_]
    rw [hspec, hspec', inRange, inRange]
    split
    · next hk => rw [hview k hk]
    · rfl

/-! ## Missing files -/

/-- The table under that name holds none of these keys. -/
def HoldsNone (files : Files) (asks : Bytes → Prop) (path : Path) : Prop :=
  ∀ m : SSTableMeta, m.path = path → ∀ k, asks k → tableLayer files m k = none

section Robust

variable {files : Files} {asks : Bytes → Prop} {opens : Path → Prop}

/-- A value is read only from a table that has the key. -/
theorem robust_valueSteps {sstable : SSTable} {key : Bytes} (hopen : opens sstable.path)
    (hneeded : key ∈ sstable.index.keys → ¬HoldsNone files asks sstable.path) :
    Robust files none opens (HoldsNone files asks) (valueSteps sstable key).run := by
  rw [valueSteps]
  cases hindex : sstable.index.get? key with
  | none => trivial
  | some offset =>
    have hmem : key ∈ sstable.index.keys := by
      by_contra hnot
      rw [(Dict.get?_eq_none_iff _).mpr hnot] at hindex
      cases hindex
    exact robust_readFile hopen (fun h => absurd h (hneeded hmem))
      (Robust.except_bind trivial fun _ => trivial) (Robust.except_bind trivial fun _ => trivial)

/-- So are the values of a range. -/
theorem robust_itemsSteps {sstable : SSTable} {keys : List Bytes} (hopen : opens sstable.path)
    (hneeded : ∀ key ∈ keys, key ∈ sstable.index.keys → ¬HoldsNone files asks sstable.path) :
    Robust files none opens (HoldsNone files asks) (itemsSteps sstable keys).run := by
  induction keys with
  | nil => trivial
  | cons key keys ih =>
    refine Robust.except_bind (robust_valueSteps hopen (hneeded key List.mem_cons_self)) ?_
    intro _
    exact Robust.except_bind (ih fun k hk => hneeded k (List.mem_cons_of_mem _ hk)) fun _ => trivial

/-- Loading an index first: without the file it stays empty. -/
theorem robust_indexSteps {α : Type} {m : SSTableMeta} {f : SSTable → Reader α} (hopen : opens m.path)
    (hspared : HoldsNone files asks m.path →
      f (metadataToSstable m) = f ((metadataToSstable m).ensureIndex files))
    (hmissing : Robust files none opens (HoldsNone files asks) (f (metadataToSstable m)).run)
    (hthere : Robust files none opens (HoldsNone files asks)
      (f ((metadataToSstable m).ensureIndex files)).run) :
    Robust files none opens (HoldsNone files asks) (indexSteps m >>= f).run :=
  ⟨hopen, fun h => congrArg ExceptT.run (hspared h), hmissing, hthere⟩

/-- The index of a readable table has the keys of its pairs. -/
theorem keys_ensureIndex {m : SSTableMeta} {pairs : List (Bytes × Bytes)} (h : Lists files m pairs) :
    ((metadataToSstable m).ensureIndex files).index.keys = pairs.map Prod.fst := by
  rw [Dict.keys, SSTable.ensureIndex_of_holds (t := metadataToSstable m) h.holds (.inl rfl),
    SSTable.map_fst_offsetsFrom]

/-- A table that has a key in its index is needed for it. -/
theorem not_holdsNone {m : SSTableMeta} {pairs : List (Bytes × Bytes)} (h : Lists files m pairs)
    {key : Bytes} (hasks : asks key)
    (hkey : key ∈ ((metadataToSstable m).ensureIndex files).index.keys) :
    ¬HoldsNone files asks m.path := by
  intro hnone
  have := hnone m rfl key hasks
  rw [tableLayer_of_lists h] at this
  rw [keys_ensureIndex h] at hkey
  exact assoc_eq_none_iff.mp this hkey

/-- A lookup is the same whether or not tables without the key are there. -/
theorem robust_lookupSteps {key : Bytes} (hasks : asks key) {metas : List SSTableMeta}
    (h : ∀ m ∈ metas, SSTableManager.Readable files m ∧ opens m.path) :
    Robust files none opens (HoldsNone files asks) (lookupSteps key metas).run := by
  induction metas with
  | nil => trivial
  | cons m metas ih =>
    obtain ⟨⟨pairs, hm⟩, hopen⟩ := h m List.mem_cons_self
    have hrest := ih fun m' hm' => h m' (List.mem_cons_of_mem _ hm')
    rw [lookupSteps]
    refine Robust.except_bind trivial fun minKey => Robust.except_bind trivial ?_
    intro maxKey
    split
    · exact hrest
    · have hmore : ∀ value, Robust files none opens (HoldsNone files asks)
          (match value with
            | some value => pure (some value)
            | none => lookupSteps key metas : Reader (Option Bytes)).run := by
        intro value
        cases value with
        | none => exact hrest
        | some value => trivial
      -- without its file the index stays empty, and the table is asked for nothing
      refine robust_indexSteps hopen ?_ (Robust.except_bind trivial hmore)
        (Robust.except_bind (robust_valueSteps ?_ ?_) hmore)
      · intro hnone
        have hindex : ((metadataToSstable m).ensureIndex files).index.get? key = none :=
          (Dict.get?_eq_none_iff _).mpr fun hkey => not_holdsNone hm hasks hkey hnone
        have hvalue : valueSteps ((metadataToSstable m).ensureIndex files) key =
            valueSteps (metadataToSstable m) key := by
          rw [valueSteps, valueSteps, hindex]
          rfl
        rw [hvalue]
      · rwa [SSTable.path_ensureIndex]
      · rw [SSTable.path_ensureIndex]
        exact not_holdsNone hm hasks

/-- So is a range read for tables without a key of the range. -/
theorem robust_collectSteps {startKey endKey : Bytes}
    (hasks : ∀ k, startKey ≤ k ∧ k < endKey → asks k) {metas : List SSTableMeta}
    (h : ∀ m ∈ metas, SSTableManager.Readable files m ∧ opens m.path) (acc : List Bytes × Buffer) :
    Robust files none opens (HoldsNone files asks) (collectSteps startKey endKey metas acc).run := by
  induction metas generalizing acc with
  | nil => trivial
  | cons m metas ih =>
    obtain ⟨⟨pairs, hm⟩, hopen⟩ := h m List.mem_cons_self
    have hrest := ih fun m' hm' => h m' (List.mem_cons_of_mem _ hm')
    -- a table with a key in the range is not one that holds none of the keys asked
    have hneeded : ∀ key ∈ SSTable.keysInRange
        ((metadataToSstable m).ensureIndex files).index startKey endKey,
        ¬HoldsNone files asks m.path := by
      intro key hkey
      obtain ⟨hin, hstart⟩ := List.mem_filter.mp hkey
      have hend := List.mem_takeWhile_imp hin
      refine not_holdsNone hm (hasks key ⟨of_decide_eq_true hstart, of_decide_eq_true hend⟩) ?_
      exact (Dict.sortedKeys_perm _).mem_iff.mp ((List.takeWhile_sublist _).subset hin)
    rw [collectSteps]
    refine robust_indexSteps hopen ?_ (hrest _)
      (Robust.except_bind (robust_itemsSteps ?_ ?_) fun _ => hrest _)
    · intro hnone
      have hkeys : SSTable.keysInRange ((metadataToSstable m).ensureIndex files).index startKey endKey = [] :=
        List.eq_nil_iff_forall_not_mem.mpr fun key hkey => hneeded key hkey hnone
      rw [hkeys]
      rfl
    · rwa [SSTable.path_ensureIndex]
    · rw [SSTable.path_ensureIndex]
      exact fun key hkey _ => hneeded key hkey

/-- The tables a range read opens are listed ones. -/
theorem subset_of_overlapping {startKey endKey : Bytes} {metas infos : List SSTableMeta}
    (h : overlapping startKey endKey metas = .ok infos) : infos ⊆ metas := by
  induction metas generalizing infos with
  | nil =>
    obtain rfl := Except.ok.inj h
    exact List.Subset.refl _
  | cons m metas ih =>
    rw [overlapping] at h
    cases hmin : fromHex m.minKeyHex with
    | error e => rw [hmin] at h; cases h
    | ok minKey =>
      cases hmax : fromHex m.maxKeyHex with
      | error e => rw [hmin, hmax] at h; cases h
      | ok maxKey =>
        rw [hmin, hmax] at h
        cases hlater : overlapping startKey endKey metas with
        | error e => rw [hlater] at h; cases h
        | ok later =>
          rw [hlater] at h
          have heq := Except.ok.inj h
          rw [← heq]
          split
          · exact List.subset_cons_of_subset _ (ih hlater)
          · exact List.cons_subset_cons _ (ih hlater)

/-- **Missing files**: a read opens listed files only, and does not notice when one
that holds none of its keys is gone. -/
theorem robust_steps {manifest : Manifest} (hr : AllReadable files manifest) (memtable : MemTable)
    (q : Query) :
    Robust files none (fun path => ∃ m ∈ readOrder manifest, m.path = path)
      (HoldsNone files q.Asks) (q.steps memtable manifest).run := by
  have hlisted : ∀ m ∈ readOrder manifest, SSTableManager.Readable files m ∧
      ∃ m' ∈ readOrder manifest, m'.path = m.path := fun m hm => ⟨hr m hm, m, hm, rfl⟩
  cases q with
  | get key =>
    refine Robust.except_bind ?_ fun _ => trivial
    rw [storedSteps, map_snd_iterSstableMetadata]
    cases memtable.get key with
    | some value => trivial
    | none =>
      have hasks : Query.Asks (.get key) key := rfl
      exact robust_lookupSteps hasks hlisted
  | range startKey endKey =>
    show Robust _ _ _ _ ((settled (overlapping startKey endKey _) >>= fun metas =>
      collectSteps startKey endKey metas _ >>= fun acc => pure acc.2.sortedItems) : Reader _).run
    rw [map_snd_iterSstableMetadata]
    cases hinfos : overlapping startKey endKey (readOrder manifest) with
    | error e => trivial
    | ok infos =>
      have hasks : ∀ k, startKey ≤ k ∧ k < endKey → Query.Asks (.range startKey endKey) k :=
        fun _ hk => hk
      show Robust _ _ _ _ ((collectSteps startKey endKey infos _ >>= fun acc =>
        pure acc.2.sortedItems) : Reader _).run
      refine Robust.except_bind (robust_collectSteps hasks ?_ _) fun _ => trivial
      intro m hm
      exact hlisted m (subset_of_overlapping hinfos hm)

end Robust

end Reading

end Logvine
