import Logvine.Base.HeapMerge
import Logvine.Storage.Compaction

/-!
# The merge of the tables is exact

`merge_sstables` on the heap of `heapq`, for tables whatever is in their files as
long as every lookup in them succeeds.

- `iterItems_of_searchable`: walking such a table yields exactly what lookups in it
  find, in ascending order;
- `mergeSstablesHeapq_eq`: the heap never fails, so the merge is `mergeSstables`;
- `mergeSstables_exact`: the merge ascends and has each key of the tables once, with
  the value of the first table that has it.

The heap holds tuples of key, place, value and iterator (`compaction.py`, 69 and 89). Python
compares tuples from the front, so if two had the same key and place it would go on to the
values and then to the iterators, which have no order and raise; the heap of the model takes
every such comparison for an error, and there is none.
-/

namespace Logvine

open Layer Heapq SSTableManager

/-! ## Walking a table -/

namespace SSTable

variable {t : SSTable} {files : Files}

/-- Every lookup in the table succeeds. -/
def Searchable (t : SSTable) (files : Files) : Prop := ∀ key, ∃ value, t.get files key = .ok value

theorem readItems_eq {value : Bytes → Option Bytes} (h : ∀ key, t.get files key = .ok (value key))
    (keys : List Bytes) :
    t.readItems files keys = .ok (keys.filterMap fun key => (value key).map (key, ·)) := by
  induction keys with
  | nil => rfl
  | cons key keys ih =>
    rw [readItems, h, ih, List.filterMap_cons]
    cases value key <;> rfl

/-- **Walking a table** whose lookups succeed yields what they find. -/
theorem iterItems_of_searchable (h : t.Searchable files) :
    ∃ pairs, t.iterItems files = .ok pairs ∧ Ascending pairs ∧
      ∀ key, t.get files key = .ok (assoc pairs key) := by
  choose value hvalue using h
  have hmem : ∀ key, key ∉ (t.ensureIndex files).index.sortedKeys → value key = none := by
    intro key hkey
    rw [(Dict.sortedKeys_perm _).mem_iff] at hkey
    exact Except.ok.inj ((hvalue key).symm.trans (get_of_not_mem hkey))
  have hread : t.iterItems files = .ok ((t.ensureIndex files).index.sortedKeys.filterMap fun key =>
      (value key).map (key, ·)) :=
    readItems_eq (fun key => (get_ensureIndex t files key).trans (hvalue key)) _
  have hasc := ascending_iterItems hread
  generalize (t.ensureIndex files).index.sortedKeys = keys at hmem hread hasc
  refine ⟨_, hread, hasc, ?_⟩
  intro key
  rw [hvalue]
  refine congrArg _ (Option.ext ?_)
  intro v
  rw [assoc_eq_some_iff hasc.nodup, List.mem_filterMap]
  constructor
  · intro hv
    have hin : key ∈ keys := by
      by_contra hout
      rw [hmem key hout] at hv
      cases hv
    exact ⟨key, hin, by rw [hv]; rfl⟩
  · rintro ⟨k, -, hk⟩
    obtain ⟨_, hv, heq⟩ := Option.map_eq_some_iff.mp hk
    cases heq
    exact hv

end SSTable

/-! ## The merge on the heap -/

/-- What ends a merge: an exception while reading a table, or a comparison of two
elements of the heap that gets past the key and the place of the table. -/
inductive MergeError where
  | reading (e : Error)
  | comparing (e : HeapError)

namespace CompactionManager

/-- `CompactionManager.merge_sstables` with the operations of `heapq`. -/
def mergeSstablesHeapq (files : Files) (infos : List SSTableMeta) :
    Except MergeError (List (Bytes × Bytes)) :=
  match infos.mapM fun info => (metadataToSstable info).iterItems files with
  | .error e => .error (.reading e)
  | .ok iterators => (heapMerge iterators).mapError .comparing

/-- **Only reading can end the merge early**, and what it yields is the merge by the
least front. -/
theorem mergeSstablesHeapq_eq (files : Files) (infos : List SSTableMeta) :
    mergeSstablesHeapq files infos = (mergeSstables files infos).mapError .reading := by
  rw [mergeSstablesHeapq, mergeSstables]
  cases infos.mapM fun info => (metadataToSstable info).iterItems files with
  | error e => rfl
  | ok iterators =>
    show (heapMerge iterators).mapError MergeError.comparing = .ok (kwayMerge iterators)
    rw [heapMerge_eq]
    rfl

/-- The tables that may be merged: every lookup in them succeeds. -/
def AllSearchable (files : Files) (infos : List SSTableMeta) : Prop :=
  ∀ info ∈ infos, (metadataToSstable info).Searchable files

/-- The first of the tables that has the key has this value for it. -/
def FromNewest (files : Files) (infos : List SSTableMeta) (key value : Bytes) : Prop :=
  ∃ newer info older, infos = newer ++ info :: older ∧ tableLayer files info key = some value ∧
    ∀ m ∈ newer, tableLayer files m key = none

theorem resolve_eq_some_iff {files : Files} {infos : List SSTableMeta} {key value : Bytes} :
    resolve (infos.map (tableLayer files)) key = some value ↔ FromNewest files infos key value := by
  rw [resolve, List.findSome?_map, List.findSome?_eq_some_iff]
  rfl

/-- The tables are read in order, each with what lookups in it find. -/
theorem mapM_iterItems {files : Files} {infos : List SSTableMeta} (h : AllSearchable files infos) :
    ∃ inputs, (infos.mapM fun info => (metadataToSstable info).iterItems files) = .ok inputs ∧
      (∀ l ∈ inputs, Ascending l) ∧ inputs.map assoc = infos.map (tableLayer files) := by
  induction infos with
  | nil => exact ⟨[], rfl, List.forall_mem_nil _, rfl⟩
  | cons info infos ih =>
    obtain ⟨hinfo, hinfos⟩ := List.forall_mem_cons.mp h
    obtain ⟨pairs, hread, hasc, hget⟩ := SSTable.iterItems_of_searchable hinfo
    obtain ⟨inputs, hrun, hascs, hlayers⟩ := ih hinfos
    have hlayer : assoc pairs = tableLayer files info := by
      funext key
      rw [tableLayer, hget]
    refine ⟨pairs :: inputs, ?_, List.forall_mem_cons.mpr ⟨hasc, hascs⟩, ?_⟩
    · rw [List.mapM_cons, hread, hrun]
      rfl
    · rw [List.map_cons, List.map_cons, hlayer, hlayers]

/-- **The k-way merge is exact.** -/
theorem mergeSstables_exact {files : Files} {infos : List SSTableMeta} (h : AllSearchable files infos) :
    ∃ merged, mergeSstablesHeapq files infos = .ok merged ∧ Ascending merged ∧
      (∀ key, (∃ info ∈ infos, tableLayer files info key ≠ none) →
        (merged.map Prod.fst).count key = 1) ∧
      ∀ key value, (key, value) ∈ merged ↔ FromNewest files infos key value := by
  obtain ⟨inputs, hrun, hascs, hlayers⟩ := mapM_iterItems h
  have hasc := ascending_kwayMerge hascs
  have hassoc := assoc_kwayMerge hascs
  rw [hlayers] at hassoc
  refine ⟨kwayMerge inputs, ?_, hasc, ?_, ?_⟩
  · rw [mergeSstablesHeapq_eq, mergeSstables, hrun]
    rfl
  · rintro key ⟨info, hinfo, hkey⟩
    refine List.count_eq_one_of_mem hasc.nodup ?_
    by_contra hout
    -- a key that is not merged is in none of the tables
    have hnone := assoc_eq_none_iff.mpr hout
    rw [hassoc] at hnone
    exact hkey (resolve_eq_none_iff.mp hnone _ (List.mem_map_of_mem hinfo))
  · intro key value
    rw [← assoc_eq_some_iff hasc.nodup, hassoc]
    exact resolve_eq_some_iff

/-! ## Three tables -/

/-- A newest table with the empty key and a deletion, an empty one, and an older one
with the value deleted. -/
def threeFiles : Files := fun path =>
  if path = "new" then some (SSTable.fileBytes [([], [49]), ([97], tombstone)])
  else if path = "empty" then some (SSTable.fileBytes [])
  else if path = "old" then some (SSTable.fileBytes [([97], [50]), ([97, 98], [51])])
  else none

def threeInfos : List SSTableMeta :=
  [⟨"new", 0, some 3, 64, 2, "", "61"⟩, ⟨"empty", 0, some 2, 8, 0, "", ""⟩,
    ⟨"old", 0, some 1, 56, 2, "61", "6162"⟩]

/-- The deletion is merged once and hides the older value. -/
theorem mergeSstables_exact_threeFiles :
    ∃ merged, mergeSstablesHeapq threeFiles threeInfos = .ok merged ∧ Ascending merged ∧
      (merged.map Prod.fst).count [97] = 1 ∧ ([97], tombstone) ∈ merged := by
  have hsearch : AllSearchable threeFiles threeInfos := by
    intro info hinfo key
    have hholds : ∃ pairs, SSTable.Holds threeFiles info.path pairs := by
      rcases List.mem_cons.mp hinfo with rfl | hinfo
      · exact ⟨[([], [49]), ([97], tombstone)], rfl, by decide +kernel, by constructor <;> decide +kernel⟩
      rcases List.mem_pair.mp hinfo with rfl | rfl
      · exact ⟨[], rfl, by decide +kernel, by constructor <;> decide +kernel⟩
      · exact ⟨[([97], [50]), ([97, 98], [51])], rfl, by decide +kernel, by constructor <;> decide +kernel⟩
    obtain ⟨pairs, hpairs⟩ := hholds
    exact ⟨_, SSTable.get_of_holds (t := metadataToSstable info) hpairs (.inl rfl) key⟩
  have hfirst : tableLayer threeFiles ⟨"new", 0, some 3, 64, 2, "", "61"⟩ [97] = some tombstone := by
    decide +kernel
  obtain ⟨merged, hrun, hasc, honce, hmem⟩ := mergeSstables_exact hsearch
  refine ⟨merged, hrun, hasc, honce [97] ⟨_, List.mem_cons_self, ?_⟩, (hmem _ _).mpr ?_⟩
  · rw [hfirst]
    exact Option.some_ne_none _
  · exact ⟨[], _, _, rfl, hfirst, List.forall_mem_nil _⟩

end CompactionManager

end Logvine
