import Logvine.Base.Dict
import Logvine.Base.Layers
import Logvine.Storage.WalRecord

/-!
# Sorted string tables

The file format of one table: the entries, each a length-prefixed key and value;
an index, each key with the 64-bit position of its entry; and the 64-bit position
of the index. A table object reads its index once and then opens the file again
for every value.

- `tableBytes_eq`: what `SSTable.write` puts into the file, and when it refuses;
- `loadIndex_of_holds`, `get_of_holds`: a table that was written reads back
  exactly the pairs it was written from;
- `iterItems_of_holds`, `rangeScan_of_holds`: so do the two ways of walking it;
- `write_roundTrip`: all of it for pairs that went through the write-ahead log, read
  back by a fresh table object.

The format is that of `sstable.py`, 45–69. It has no marker and no checksum, only the
position in its last eight bytes: what `_load_index` (85–114) makes of other files is the
matter of `Logvine.Storage.DamagedTables`. A table object keeps no handle open, every value
is one `open` and one `seek` (134–140).
-/

namespace Logvine

/-- File names, and what the directory holds under each. -/
abbrev Path := String

@[inherit_doc Path]
abbrev Files := Path → Option Bytes

/-- Positions of the entries of a table. -/
abbrev Index := Dict Bytes Nat

/-- An `SSTable` object. -/
structure SSTable where
  path : Path
  level : Nat
  index : Index

namespace SSTable

/-- `SSTable.__init__`. -/
def init (path : Path) (level : Nat) : SSTable := ⟨path, level, .empty⟩

/-! ## Writing -/

/-- The loop over the pairs in `SSTable.write`: the file so far and the index. -/
def writeEntry (out : Bytes × Index) (pair : Bytes × Bytes) : Except Error (Bytes × Index) := do
  let keyLen ← packU32 pair.1.length
  let valueLen ← packU32 pair.2.length
  return (out.1 ++ (keyLen ++ pair.1 ++ valueLen ++ pair.2), out.2.set pair.1 out.1.length)

/-- The loop over the index in `SSTable.write`. -/
def writeIndexEntry (out : Bytes) (item : Bytes × Nat) : Except Error Bytes := do
  let keyLen ← packU32 item.1.length
  let offset ← packU64 item.2
  return out ++ (keyLen ++ item.1 ++ offset)

/-- The bytes `SSTable.write` produces, and the index it keeps. -/
def tableBytes (pairs : List (Bytes × Bytes)) : Except Error (Bytes × Index) := do
  let (data, index) ← pairs.foldlM writeEntry ([], Dict.empty)
  let out ← index.entries.foldlM writeIndexEntry data
  let footer ← packU64 data.length
  return (out ++ footer, index)

/-- `SSTable.write`: when something raises, the incomplete file is unlinked. -/
def write (t : SSTable) (files : Files) (pairs : List (Bytes × Bytes)) :
    Files × Except Error SSTable :=
  match tableBytes pairs with
  | .error e => (Function.update files t.path none, .error e)
  | .ok (bytes, index) => (Function.update files t.path (some bytes), .ok { t with index := index })

/-! ## Reading -/

/-- The loop of `SSTable._load_index` with `rest` unread: the position is in front
of the footer as long as more than eight bytes are left. Every round takes at
least twelve bytes, so as many rounds as there are bytes suffice. -/
def loadIndexLoop : Nat → Bytes → Index → Except Error Index
  | 0, _, index => .ok index
  | rounds + 1, rest, index =>
    if 8 < rest.length then do
      let keyLen ← unpackU32 (rest.take 4)
      let key := (rest.drop 4).take keyLen
      let rest := (rest.drop 4).drop keyLen
      let offset ← unpackU64 (rest.take 8)
      loadIndexLoop rounds (rest.drop 8) (index.set key offset)
    else .ok index

/-- What `SSTable._load_index` reads from an existing file. -/
def readIndex (bytes : Bytes) : Except Error Index := do
  if bytes.length < 8 then throw .osError
  let indexOffset ← unpackU64 (bytes.drop (bytes.length - 8))
  loadIndexLoop bytes.length (bytes.drop indexOffset) .empty

/-- `SSTable._load_index`: a missing or unreadable file leaves an empty index. -/
def loadIndex (t : SSTable) (files : Files) : SSTable :=
  match files t.path with
  | none => { t with index := .empty }
  | some bytes =>
    match readIndex bytes with
    | .error _ => { t with index := .empty }
    | .ok index => { t with index := index }

/-- `if not self.index: self._load_index()`. -/
def ensureIndex (t : SSTable) (files : Files) : SSTable :=
  if t.index.entries.isEmpty then t.loadIndex files else t

/-- The second half of `SSTable.get`: open the file and read the entry at `offset`. -/
def readValue (files : Files) (path : Path) (offset : Nat) : Except Error Bytes :=
  match files path with
  | none => .error (.fileNotFound path)
  | some bytes => do
    let rest := bytes.drop offset
    let keyLen ← unpackU32 (rest.take 4)
    let rest := (rest.drop 4).drop keyLen
    let valueLen ← unpackU32 (rest.take 4)
    return (rest.drop 4).take valueLen

/-- `SSTable.get`. -/
def get (t : SSTable) (files : Files) (key : Bytes) : Except Error (Option Bytes) :=
  match (t.ensureIndex files).index.get? key with
  | none => .ok none
  | some offset => (readValue files t.path offset).map some

/-- Read the values of some keys one after the other, skipping absent ones. -/
def readItems (t : SSTable) (files : Files) : List Bytes → Except Error (List (Bytes × Bytes))
  | [] => .ok []
  | key :: keys => do
    let value ← t.get files key
    let items ← readItems t files keys
    return match value with
      | none => items
      | some value => (key, value) :: items

/-- The index keys a range scan visits: it passes over keys before the range and
breaks at the first key behind it. -/
def keysInRange (index : Index) (startKey endKey : Bytes) : List Bytes :=
  (index.sortedKeys.takeWhile fun key => key < endKey).filter fun key => startKey ≤ key

/-- `SSTable.range_scan`. -/
def rangeScan (t : SSTable) (files : Files) (startKey endKey : Bytes) :
    Except Error (List (Bytes × Bytes)) :=
  let t := t.ensureIndex files
  t.readItems files (keysInRange t.index startKey endKey)

/-- `SSTable.iter_items`. -/
def iterItems (t : SSTable) (files : Files) : Except Error (List (Bytes × Bytes)) :=
  let t := t.ensureIndex files
  t.readItems files t.index.sortedKeys

/-! ## Loading the index -/

theorem path_ensureIndex (t : SSTable) (files : Files) : (t.ensureIndex files).path = t.path := by
  unfold ensureIndex loadIndex
  split
  · split
    · rfl
    · split <;> rfl
  · rfl

theorem loadIndex_loadIndex (t : SSTable) (files : Files) :
    (t.loadIndex files).loadIndex files = t.loadIndex files := by
  unfold loadIndex
  cases hfile : files t.path with
  | none => simp only [hfile]
  | some bytes =>
    dsimp only
    cases hread : readIndex bytes <;> simp only [hfile, hread]

/-- An index that is loaded is not loaded again. -/
theorem ensureIndex_ensureIndex (t : SSTable) (files : Files) :
    (t.ensureIndex files).ensureIndex files = t.ensureIndex files := by
  by_cases hempty : t.index.entries.isEmpty
  · rw [ensureIndex.eq_def t, if_pos hempty, ensureIndex, loadIndex_loadIndex, ite_self]
  · rw [ensureIndex.eq_def t, if_neg hempty, ensureIndex, if_neg hempty]

theorem get_ensureIndex (t : SSTable) (files : Files) (key : Bytes) :
    (t.ensureIndex files).get files key = t.get files key := by
  rw [get, get, ensureIndex_ensureIndex, path_ensureIndex]

/-- The keys that are not in the index are not found. -/
theorem get_of_not_mem {t : SSTable} {files : Files} {key : Bytes} (h : key ∉ (t.ensureIndex files).index.keys) :
    t.get files key = .ok none := by
  rw [get, (Dict.get?_eq_none_iff _).mpr h]

/-- The index of a table that was just opened depends on its path only. -/
theorem index_ensureIndex_init (path : Path) (level level' : Nat) (files : Files) :
    ((init path level).ensureIndex files).index = ((init path level').ensureIndex files).index := by
  simp only [init, ensureIndex, loadIndex]
  cases files path with
  | none => rfl
  | some bytes => cases hread : readIndex bytes <;> simp [hread]

/-! ## Walking any table -/

theorem readItems_keys {files : Files} {t : SSTable} {keys : List Bytes} {items : List (Bytes × Bytes)}
    (h : t.readItems files keys = .ok items) : (items.map Prod.fst).Sublist keys := by
  induction keys generalizing items with
  | nil =>
    cases h
    exact List.nil_sublist _
  | cons key keys ih =>
    rw [readItems] at h
    cases hvalue : t.get files key with
    | error err =>
      rw [hvalue] at h
      cases h
    | ok value =>
      cases hrest : t.readItems files keys with
      | error err =>
        rw [hvalue, hrest] at h
        cases h
      | ok rest =>
        rw [hvalue, hrest] at h
        -- a key without a value is passed over
        cases value with
        | none =>
          cases h
          exact (ih hrest).cons key
        | some value =>
          cases h
          exact (ih hrest).cons_cons key

/-- Whatever is in the file, the items come by increasing key. -/
theorem ascending_iterItems {files : Files} {t : SSTable} {items : List (Bytes × Bytes)}
    (h : t.iterItems files = .ok items) : Ascending items := by
  have hkeys : (t.ensureIndex files).index.sortedKeys.Pairwise (· < ·) :=
    Dict.sortedKeys_pairwise _
  rw [Ascending, ← List.pairwise_map (f := Prod.fst) (R := (· < ·))]
  exact hkeys.sublist (readItems_keys h)

/-! ## The bytes of a table -/

/-- The bytes of one entry without the limits of its length fields. -/
def entryBytes (pair : Bytes × Bytes) : Bytes :=
  beBytes 4 pair.1.length ++ pair.1 ++ beBytes 4 pair.2.length ++ pair.2

/-- The data part of a table. -/
def dataBytes (pairs : List (Bytes × Bytes)) : Bytes := pairs.flatMap entryBytes

/-- The keys of a table with the positions of their entries, the first at `pos`. -/
def offsetsFrom : Nat → List (Bytes × Bytes) → List (Bytes × Nat)
  | _, [] => []
  | pos, pair :: pairs => (pair.1, pos) :: offsetsFrom (pos + (entryBytes pair).length) pairs

/-- The bytes of one index item. -/
def indexItemBytes (item : Bytes × Nat) : Bytes :=
  beBytes 4 item.1.length ++ item.1 ++ beBytes 8 item.2

/-- The bytes of a whole table. -/
def fileBytes (pairs : List (Bytes × Bytes)) : Bytes :=
  dataBytes pairs ++ (offsetsFrom 0 pairs).flatMap indexItemBytes ++
    beBytes 8 (dataBytes pairs).length

/-- All lengths and positions of a table fit their fields. -/
structure Fits (pairs : List (Bytes × Bytes)) : Prop where
  key : ∀ p ∈ pairs, p.1.length < 2 ^ 32
  value : ∀ p ∈ pairs, p.2.length < 2 ^ 32
  data : (dataBytes pairs).length < 2 ^ 64

theorem dataBytes_append (ps qs : List (Bytes × Bytes)) :
    dataBytes (ps ++ qs) = dataBytes ps ++ dataBytes qs := List.flatMap_append

theorem map_fst_offsetsFrom (pos : Nat) (pairs : List (Bytes × Bytes)) :
    (offsetsFrom pos pairs).map Prod.fst = pairs.map Prod.fst := by
  induction pairs generalizing pos with
  | nil => rfl
  | cons p ps ih => rw [offsetsFrom, List.map_cons, List.map_cons, ih]

theorem ascending_offsetsFrom {pairs : List (Bytes × Bytes)} (h : Ascending pairs) (pos : Nat) :
    Ascending (offsetsFrom pos pairs) := by
  rw [Ascending, ← List.pairwise_map (f := Prod.fst) (R := (· < ·)), map_fst_offsetsFrom,
    List.pairwise_map]
  exact h

/-- Positions lie inside the data. -/
theorem lt_of_mem_offsetsFrom {pos : Nat} {pairs : List (Bytes × Bytes)} {item : Bytes × Nat}
    (h : item ∈ offsetsFrom pos pairs) : item.2 ≤ pos + (dataBytes pairs).length := by
  induction pairs generalizing pos with
  | nil => cases h
  | cons p ps ih =>
    have hlen : (dataBytes (p :: ps)).length = (entryBytes p).length + (dataBytes ps).length :=
      List.length_append
    rcases List.mem_cons.mp h with rfl | h
    · exact Nat.le_add_right _ _
    · have := ih h
      omega

/-- A position leads to the entry of its key. -/
theorem split_of_mem_offsetsFrom {pos : Nat} {pairs : List (Bytes × Bytes)} {key : Bytes}
    {offset : Nat} (h : (key, offset) ∈ offsetsFrom pos pairs) :
    ∃ ps value qs, pairs = ps ++ (key, value) :: qs ∧ offset = pos + (dataBytes ps).length := by
  induction pairs generalizing pos with
  | nil => cases h
  | cons p ps ih =>
    rcases List.mem_cons.mp h with heq | h
    · obtain ⟨rfl, rfl⟩ := Prod.mk.inj heq
      exact ⟨[], p.2, ps, rfl, rfl⟩
    · obtain ⟨before, value, after, hsplit, hoff⟩ := ih h
      refine ⟨p :: before, value, after, by rw [hsplit]; rfl, ?_⟩
      have hlen : (dataBytes (p :: before)).length =
          (entryBytes p).length + (dataBytes before).length := List.length_append
      omega

/-! ## What writing produces -/

theorem writeEntry_eq (out : Bytes × Index) (pair : Bytes × Bytes) :
    writeEntry out pair =
      if pair.1.length < 2 ^ 32 ∧ pair.2.length < 2 ^ 32 then
        .ok (out.1 ++ entryBytes pair, out.2.set pair.1 out.1.length)
      else .error .structError := by
  unfold writeEntry
  by_cases hk : pair.1.length < 2 ^ 32
  · by_cases hv : pair.2.length < 2 ^ 32
    · rw [packU32_of_lt hk, packU32_of_lt hv, if_pos ⟨hk, hv⟩]
      rfl
    · rw [packU32_of_lt hk, packU32_of_not_lt hv, if_neg fun h => hv h.2]
      rfl
  · rw [packU32_of_not_lt hk, if_neg fun h => hk h.1]
    rfl

theorem foldlM_writeEntry {pairs : List (Bytes × Bytes)} (hnd : (pairs.map Prod.fst).Nodup)
    (out : Bytes) (index : Index) (hnew : ∀ p ∈ pairs, p.1 ∉ index.keys) :
    (∃ index' : Index, index'.entries = index.entries ++ offsetsFrom out.length pairs ∧
        (∀ p ∈ pairs, p.1.length < 2 ^ 32 ∧ p.2.length < 2 ^ 32) ∧
        pairs.foldlM writeEntry (out, index) = .ok (out ++ dataBytes pairs, index')) ∨
      (¬(∀ p ∈ pairs, p.1.length < 2 ^ 32 ∧ p.2.length < 2 ^ 32) ∧
        pairs.foldlM writeEntry (out, index) = .error .structError) := by
  -- by induction on the pairs, over the file and the index so far
  induction pairs generalizing out index with
  | nil => exact .inl ⟨index, by simp [offsetsFrom], by simp, by simp [dataBytes, pure, Except.pure]⟩
  | cons p ps ih =>
    rw [List.map_cons, List.nodup_cons] at hnd
    rw [List.foldlM_cons, writeEntry_eq]
    by_cases hp : p.1.length < 2 ^ 32 ∧ p.2.length < 2 ^ 32
    · rw [if_pos hp]
      have hset := index.entries_set_of_not_mem out.length (hnew p List.mem_cons_self)
      have hnew' : ∀ q ∈ ps, q.1 ∉ (index.set p.1 out.length).keys := by
        intro q hq hmem
        rw [Dict.keys, hset, List.map_append, List.mem_append] at hmem
        rcases hmem with hmem | hmem
        · exact hnew q (List.mem_cons_of_mem _ hq) hmem
        · exact hnd.1 (List.mem_singleton.mp hmem ▸ List.mem_map_of_mem hq)
      have hdata : out ++ dataBytes (p :: ps) = out ++ entryBytes p ++ dataBytes ps :=
        (List.append_assoc ..).symm
      rcases ih hnd.2 (out ++ entryBytes p) (index.set p.1 out.length) hnew' with
        ⟨index', hentries, hfits, hrun⟩ | ⟨hfits, hrun⟩
      · refine .inl ⟨index', ?_, List.forall_mem_cons.mpr ⟨hp, hfits⟩, ?_⟩
        · rw [hentries, hset, List.append_assoc, List.length_append]
          rfl
        · rw [hdata]
          exact hrun
      · exact .inr ⟨fun h => hfits fun q hq => h q (List.mem_cons_of_mem _ hq), hrun⟩
    · rw [if_neg hp]
      exact .inr ⟨fun h => hp (h p List.mem_cons_self), rfl⟩

theorem foldlM_writeIndexEntry {items : List (Bytes × Nat)} (out : Bytes)
    (hfits : ∀ item ∈ items, item.1.length < 2 ^ 32 ∧ item.2 < 2 ^ 64) :
    items.foldlM writeIndexEntry out = .ok (out ++ items.flatMap indexItemBytes) := by
  induction items generalizing out with
  | nil => simp [pure, Except.pure]
  | cons item items ih =>
    obtain ⟨hk, ho⟩ := hfits item List.mem_cons_self
    have hentry : writeIndexEntry out item = .ok (out ++ indexItemBytes item) := by
      rw [writeIndexEntry, packU32_of_lt hk, packU64_of_lt ho]
      rfl
    rw [List.foldlM_cons, hentry]
    show items.foldlM writeIndexEntry (out ++ indexItemBytes item) = _
    rw [ih _ fun i hi => hfits i (List.mem_cons_of_mem _ hi), List.append_assoc]
    rfl

/-- Keys and positions fit the fields of the index. -/
theorem index_fits {pairs : List (Bytes × Bytes)} (hfits : Fits pairs) :
    ∀ item ∈ offsetsFrom 0 pairs, item.1.length < 2 ^ 32 ∧ item.2 < 2 ^ 64 := by
  intro item hitem
  have hkey : item.1 ∈ pairs.map Prod.fst := by
    rw [← map_fst_offsetsFrom 0 pairs]
    exact List.mem_map_of_mem hitem
  obtain ⟨p, hp, hpk⟩ := List.mem_map.mp hkey
  have hle := lt_of_mem_offsetsFrom hitem
  have hdata := hfits.data
  exact ⟨hpk ▸ hfits.key p hp, by omega⟩

/-- A table whose lengths and positions fit is written as `fileBytes`, and its index
holds the positions of its keys. -/
theorem tableBytes_of_fits {pairs : List (Bytes × Bytes)} (hnd : (pairs.map Prod.fst).Nodup)
    (hfits : Fits pairs) :
    ∃ index : Index, index.entries = offsetsFrom 0 pairs ∧
      tableBytes pairs = .ok (fileBytes pairs, index) := by
  rcases foldlM_writeEntry hnd [] .empty (by simp [Dict.keys]) with
    ⟨index, hentries, -, hrun⟩ | ⟨hbad, -⟩
  · refine ⟨index, hentries, ?_⟩
    have hindex : ∀ item ∈ index.entries, item.1.length < 2 ^ 32 ∧ item.2 < 2 ^ 64 := by
      rw [hentries]
      exact index_fits hfits
    rw [tableBytes, hrun]
    show (do
      let out ← index.entries.foldlM writeIndexEntry ([] ++ dataBytes pairs)
      let footer ← packU64 ([] ++ dataBytes pairs).length
      return (out ++ footer, index)) = _
    rw [foldlM_writeIndexEntry _ hindex, List.nil_append, packU64_of_lt hfits.data, hentries]
    rfl
  · exact absurd (fun p hp => ⟨hfits.key p hp, hfits.value p hp⟩) hbad

/-- Nothing else is written successfully. -/
theorem fits_of_tableBytes {pairs : List (Bytes × Bytes)} (hnd : (pairs.map Prod.fst).Nodup)
    {out : Bytes × Index} (h : tableBytes pairs = .ok out) : Fits pairs := by
  rcases foldlM_writeEntry hnd [] .empty (by simp [Dict.keys]) with
    ⟨index, -, hlens, hrun⟩ | ⟨-, hrun⟩
  · rw [tableBytes, hrun] at h
    refine ⟨fun p hp => (hlens p hp).1, fun p hp => (hlens p hp).2, ?_⟩
    by_contra hbig
    have hpack : packU64 ([] ++ dataBytes pairs).length = .error .structError := if_neg hbig
    -- the footer would not fit, whatever the loop over the index has done
    change (do
      let out ← index.entries.foldlM writeIndexEntry ([] ++ dataBytes pairs)
      let footer ← packU64 ([] ++ dataBytes pairs).length
      return (out ++ footer, index)) = _ at h
    rw [hpack] at h
    cases hfold : index.entries.foldlM writeIndexEntry ([] ++ dataBytes pairs) with
    | error e => rw [hfold] at h; cases h
    | ok data => rw [hfold] at h; cases h
  · rw [tableBytes, hrun] at h
    cases h

/-- **What `SSTable.write` does** with pairs of distinct keys. -/
theorem tableBytes_eq {pairs : List (Bytes × Bytes)} (hnd : (pairs.map Prod.fst).Nodup) :
    (Fits pairs ∧ ∃ index : Index, index.entries = offsetsFrom 0 pairs ∧
        tableBytes pairs = .ok (fileBytes pairs, index)) ∨
      (¬Fits pairs ∧ ∃ e, tableBytes pairs = .error e) := by
  by_cases hfits : Fits pairs
  · exact .inl ⟨hfits, tableBytes_of_fits hnd hfits⟩
  · refine .inr ⟨hfits, ?_⟩
    cases h : tableBytes pairs with
    | error e => exact ⟨e, rfl⟩
    | ok out => exact absurd (fits_of_tableBytes hnd h) hfits

/-! ## Reading what was written -/

/-- The file under `path` is the table of these pairs. -/
structure Holds (files : Files) (path : Path) (pairs : List (Bytes × Bytes)) : Prop where
  file : files path = some (fileBytes pairs)
  ascending : Ascending pairs
  fits : Fits pairs

/-- The loop over the index reads its items and stops at the footer. -/
theorem loadIndexLoop_items {items : List (Bytes × Nat)}
    (hfits : ∀ item ∈ items, item.1.length < 2 ^ 32 ∧ item.2 < 2 ^ 64) {footer : Bytes}
    (hfooter : footer.length = 8) (rounds : Nat) (index : Index) :
    loadIndexLoop (items.length + rounds) (items.flatMap indexItemBytes ++ footer) index =
      .ok (index.setAll items) := by
  induction items generalizing index with
  | nil =>
    -- only the footer is left, which is not longer than eight bytes
    have hstop : ∀ n, loadIndexLoop n footer index = .ok index := by
      intro n
      cases n with
      | zero => rfl
      | succ n => rw [loadIndexLoop, if_neg (by omega)]
    exact hstop _
  | cons item items ih =>
    obtain ⟨hk, ho⟩ := hfits item List.mem_cons_self
    have hrest : (item :: items).flatMap indexItemBytes ++ footer =
        beBytes 4 item.1.length ++
          (item.1 ++ (beBytes 8 item.2 ++ (items.flatMap indexItemBytes ++ footer))) := by
      simp only [List.flatMap_cons, indexItemBytes, List.append_assoc]
    have hlong : 8 < ((item :: items).flatMap indexItemBytes ++ footer).length := by
      rw [hrest]
      simp only [List.length_append, length_beBytes, hfooter]
      omega
    rw [List.length_cons, Nat.add_right_comm, loadIndexLoop, if_pos hlong, hrest]
    simp only [take_beBytes_append, drop_beBytes_append, unpackU32_beBytes hk, bind, Except.bind,
      List.take_left, List.drop_left, unpackU64_beBytes ho]
    rw [ih fun i hi => hfits i (List.mem_cons_of_mem _ hi), Dict.setAll_cons]

theorem length_le_flatMap_indexItemBytes (items : List (Bytes × Nat)) :
    items.length ≤ (items.flatMap indexItemBytes).length := by
  induction items with
  | nil => exact Nat.le_refl 0
  | cons item items ih =>
    rw [List.flatMap_cons, List.length_append, List.length_cons]
    have : (indexItemBytes item).length = item.1.length + 12 := by
      simp only [indexItemBytes, List.length_append, length_beBytes]
      omega
    omega

/-- The index of a written table is read back. -/
theorem readIndex_fileBytes {pairs : List (Bytes × Bytes)} (hfits : Fits pairs) :
    readIndex (fileBytes pairs) = .ok (Dict.empty.setAll (offsetsFrom 0 pairs)) := by
  let items := (offsetsFrom 0 pairs).flatMap indexItemBytes
  let footer := beBytes 8 (dataBytes pairs).length
  have hfooter : footer.length = 8 := length_beBytes _ _
  have hsplit : fileBytes pairs = dataBytes pairs ++ (items ++ footer) := List.append_assoc ..
  have hlen : (fileBytes pairs).length - 8 = (dataBytes pairs ++ items).length := by
    rw [hsplit, ← List.append_assoc, List.length_append, hfooter, Nat.add_sub_cancel]
  have hlast : (fileBytes pairs).drop ((fileBytes pairs).length - 8) = footer := by
    rw [hlen, hsplit, ← List.append_assoc, List.drop_left]
  have hshort : ¬(fileBytes pairs).length < 8 := by
    rw [hsplit]
    simp only [List.length_append, hfooter]
    omega
  have hindex : (fileBytes pairs).drop (dataBytes pairs).length = items ++ footer := by
    rw [hsplit, List.drop_left]
  -- every item takes at least one byte, so there are rounds enough
  obtain ⟨rounds, hrounds⟩ : ∃ rounds, (fileBytes pairs).length =
      (offsetsFrom 0 pairs).length + rounds := by
    refine Nat.exists_eq_add_of_le ?_
    have : (offsetsFrom 0 pairs).length ≤ items.length :=
      length_le_flatMap_indexItemBytes (offsetsFrom 0 pairs)
    rw [hsplit]
    simp only [List.length_append]
    omega
  simp only [readIndex, if_neg hshort, bind, Except.bind, hlast, footer,
    unpackU64_beBytes hfits.data, hindex]
  rw [hrounds]
  exact loadIndexLoop_items (index_fits hfits) hfooter rounds .empty

section Written

variable {files : Files} {t : SSTable} {pairs : List (Bytes × Bytes)}

/-- The index of a table, as it was left by writing it or is still to be loaded. -/
def IndexOf (t : SSTable) (pairs : List (Bytes × Bytes)) : Prop :=
  t.index.entries = [] ∨ t.index.entries = offsetsFrom 0 pairs

theorem loadIndex_of_holds (h : Holds files t.path pairs) :
    (t.loadIndex files).index.entries = offsetsFrom 0 pairs := by
  have hnd : ((offsetsFrom 0 pairs).map Prod.fst).Nodup := (ascending_offsetsFrom h.ascending 0).nodup
  rw [loadIndex, h.file]
  simp only [readIndex_fileBytes h.fits]
  rw [Dict.entries_setAll_of_nodup _ hnd (by simp [Dict.keys])]
  rfl

theorem ensureIndex_of_holds (h : Holds files t.path pairs) (hi : IndexOf t pairs) :
    (t.ensureIndex files).index.entries = offsetsFrom 0 pairs := by
  unfold ensureIndex
  split
  · exact loadIndex_of_holds h
  · next hne => exact hi.resolve_left fun h => hne (by rw [h]; rfl)

theorem readValue_of_holds (h : Holds files t.path pairs) {ps qs : List (Bytes × Bytes)}
    {key value : Bytes} (hsplit : pairs = ps ++ (key, value) :: qs) :
    readValue files t.path (dataBytes ps).length = .ok value := by
  have hmem : (key, value) ∈ pairs := by
    rw [hsplit]
    exact List.mem_append_right _ List.mem_cons_self
  have hk : key.length < 2 ^ 32 := h.fits.key _ hmem
  have hv : value.length < 2 ^ 32 := h.fits.value _ hmem
  -- at that position the file goes on with the entry
  have hdrop : ∃ rest, (fileBytes pairs).drop (dataBytes ps).length =
      beBytes 4 key.length ++ (key ++ (beBytes 4 value.length ++ (value ++ rest))) := by
    have hdata : dataBytes pairs = dataBytes ps ++ (entryBytes (key, value) ++ dataBytes qs) := by
      rw [hsplit, dataBytes_append]
      rfl
    obtain ⟨tail, htail⟩ : ∃ tail, fileBytes pairs = dataBytes pairs ++ tail :=
      ⟨_, List.append_assoc ..⟩
    refine ⟨dataBytes qs ++ tail, ?_⟩
    rw [htail, hdata]
    simp only [List.append_assoc, List.drop_left, entryBytes]
  obtain ⟨rest, hrest⟩ := hdrop
  simp only [readValue, h.file, hrest, take_beBytes_append, drop_beBytes_append,
    unpackU32_beBytes hk, bind, Except.bind, List.drop_left, unpackU32_beBytes hv, List.take_left]
  rfl

/-- **A written table answers with the pairs it was written from.** -/
theorem get_of_holds (h : Holds files t.path pairs) (hi : IndexOf t pairs) (key : Bytes) :
    t.get files key = .ok (assoc pairs key) := by
  have hentries := ensureIndex_of_holds h hi
  unfold get
  cases hoff : (t.ensureIndex files).index.get? key with
  | none =>
    have hnot : key ∉ pairs.map Prod.fst := by
      have := (Dict.get?_eq_none_iff _).mp hoff
      rwa [Dict.keys, hentries, map_fst_offsetsFrom] at this
    show Except.ok none = _
    rw [assoc_eq_none_iff.mpr hnot]
  | some offset =>
    have hmem := (Dict.get?_eq_some_iff _).mp hoff
    rw [hentries] at hmem
    obtain ⟨ps, value, qs, hsplit, hpos⟩ := split_of_mem_offsetsFrom hmem
    rw [Nat.zero_add] at hpos
    have hin : (key, value) ∈ pairs := by
      rw [hsplit]
      exact List.mem_append_right _ List.mem_cons_self
    show (readValue files t.path offset).map some = _
    rw [hpos, readValue_of_holds h hsplit, assoc_of_mem h.ascending.nodup hin]
    rfl

theorem readItems_of_holds (h : Holds files t.path pairs) (hi : IndexOf t pairs)
    {items : List (Bytes × Bytes)} (hsub : ∀ p ∈ items, p ∈ pairs) :
    t.readItems files (items.map Prod.fst) = .ok items := by
  induction items with
  | nil => rfl
  | cons p items ih =>
    have hp : assoc pairs p.1 = some p.2 :=
      assoc_of_mem h.ascending.nodup (hsub p List.mem_cons_self)
    rw [List.map_cons, readItems, get_of_holds h hi, hp,
      ih fun q hq => hsub q (List.mem_cons_of_mem _ hq)]
    rfl

theorem indexOf_ensureIndex (h : Holds files t.path pairs) (hi : IndexOf t pairs) :
    IndexOf (t.ensureIndex files) pairs :=
  .inr (ensureIndex_of_holds h hi)

theorem sortedKeys_ensureIndex (h : Holds files t.path pairs) (hi : IndexOf t pairs) :
    (t.ensureIndex files).index.sortedKeys = pairs.map Prod.fst := by
  have hentries := ensureIndex_of_holds h hi
  rw [Dict.sortedKeys_of_ascending, hentries, map_fst_offsetsFrom]
  rw [hentries]
  exact ascending_offsetsFrom h.ascending 0

theorem iterItems_of_holds (h : Holds files t.path pairs) (hi : IndexOf t pairs) :
    t.iterItems files = .ok pairs := by
  rw [iterItems, sortedKeys_ensureIndex h hi]
  have h' : Holds files (t.ensureIndex files).path pairs := by rwa [path_ensureIndex]
  exact readItems_of_holds h' (indexOf_ensureIndex h hi) fun _ hp => hp

theorem rangeScan_of_holds (h : Holds files t.path pairs) (hi : IndexOf t pairs)
    (startKey endKey : Bytes) :
    t.rangeScan files startKey endKey =
      .ok (pairs.filter fun p => decide (startKey ≤ p.1 ∧ p.1 < endKey)) := by
  have h' : Holds files (t.ensureIndex files).path pairs := by rwa [path_ensureIndex]
  have hkeys : keysInRange (t.ensureIndex files).index startKey endKey =
      (pairs.filter fun p => decide (startKey ≤ p.1 ∧ p.1 < endKey)).map Prod.fst := by
    have htake : (pairs.takeWhile fun p => decide (p.1 < endKey)) =
        pairs.filter fun p => decide (p.1 < endKey) := takeWhile_of_ascending h.ascending endKey
    rw [keysInRange, sortedKeys_ensureIndex h hi, List.takeWhile_map, List.filter_map]
    show ((pairs.takeWhile fun p => decide (p.1 < endKey)).filter
      fun p => decide (startKey ≤ p.1)).map Prod.fst = _
    rw [htake, List.filter_filter]
    congr 1
    exact List.filter_congr fun p _ => (Bool.decide_and _ _).symm
  rw [rangeScan, hkeys]
  exact readItems_of_holds h' (indexOf_ensureIndex h hi) fun p hp => (List.mem_filter.mp hp).1

end Written

/-! ## The round trip -/

/-- Pairs that the log accepts fit a table, as long as the file as a whole does. -/
theorem fits_of_logged {pairs : List (Bytes × Bytes)}
    (hrec : ∀ p ∈ pairs, ∃ op record, constructRecord op p.1 p.2 = .ok record)
    (hsize : (fileBytes pairs).length < 2 ^ 64) : Fits pairs := by
  have hlen : ∀ p ∈ pairs, p.1.length + p.2.length + 13 < 2 ^ 32 := by
    intro p hp
    obtain ⟨op, record, hrun⟩ := hrec p hp
    by_contra hbig
    have hrefused : constructRecord op p.1 p.2 = .error .structError :=
      (constructRecord_eq ⟨op, p.1, p.2⟩).trans (if_neg hbig)
    rw [hrefused] at hrun
    cases hrun
  constructor
  · intro p hp
    have := hlen p hp
    omega
  · intro p hp
    have := hlen p hp
    omega
  · simp only [fileBytes, List.length_append] at hsize
    omega

/-- `SSTable.write` succeeds and leaves the table's file under its name. -/
theorem holds_write {pairs : List (Bytes × Bytes)} (hasc : Ascending pairs) (hfits : Fits pairs)
    (t : SSTable) (files : Files) :
    (∃ written, (t.write files pairs).2 = .ok written) ∧
      Holds (t.write files pairs).1 t.path pairs := by
  obtain ⟨index, -, hrun⟩ := tableBytes_of_fits hasc.nodup hfits
  have hwrite : t.write files pairs =
      (Function.update files t.path (some (fileBytes pairs)), .ok { t with index := index }) := by
    rw [write, hrun]
  rw [hwrite]
  exact ⟨⟨_, rfl⟩, Function.update_self .., hasc, hfits⟩

/-- **The table file round trip.** Ascending pairs that the log accepted are written,
and a fresh table object on the same file has exactly their keys in its index, answers
each with its value and every other key with nothing, walks them in order, and scans
exactly the part of them that lies in the range. -/
theorem write_roundTrip {pairs : List (Bytes × Bytes)} (hasc : Ascending pairs)
    (hrec : ∀ p ∈ pairs, ∃ op record, constructRecord op p.1 p.2 = .ok record)
    (hsize : (fileBytes pairs).length < 2 ^ 64) (t : SSTable) (files : Files) (level : Nat) :
    let files' := (t.write files pairs).1
    let fresh := init t.path level
    (∃ written, (t.write files pairs).2 = .ok written) ∧
      files' t.path = some (fileBytes pairs) ∧
      (fresh.loadIndex files').index.keys = pairs.map Prod.fst ∧
      (∀ p ∈ pairs, fresh.get files' p.1 = .ok (some p.2)) ∧
      (∀ key ∉ pairs.map Prod.fst, fresh.get files' key = .ok none) ∧
      fresh.iterItems files' = .ok pairs ∧
      ∀ startKey endKey, fresh.rangeScan files' startKey endKey =
        .ok (pairs.filter fun p => decide (startKey ≤ p.1 ∧ p.1 < endKey)) := by
  intro files' fresh
  obtain ⟨hwritten, hholds⟩ := holds_write hasc (fits_of_logged hrec hsize) t files
  have hfresh : Holds files' fresh.path pairs := hholds
  have hindex : IndexOf fresh pairs := .inl rfl
  refine ⟨hwritten, hholds.file, ?_, ?_, ?_, iterItems_of_holds hfresh hindex, ?_⟩
  · rw [Dict.keys, loadIndex_of_holds hfresh, map_fst_offsetsFrom]
  · intro p hp
    rw [get_of_holds hfresh hindex, assoc_of_mem hasc.nodup hp]
  · intro key hkey
    rw [get_of_holds hfresh hindex, assoc_eq_none_iff.mpr hkey]
  · intro startKey endKey
    exact rangeScan_of_holds hfresh hindex startKey endKey

/-- An empty key and an empty value go through the file and come back. -/
theorem write_roundTrip_empty_key :
    let pairs : List (Bytes × Bytes) := [([], [7]), ([1], [])]
    let files := ((init "t.sst" 0).write (fun _ => none) pairs).1
    (init "t.sst" 0).get files [] = .ok (some [7]) ∧
      (init "t.sst" 0).iterItems files = .ok pairs :=
  let trip := @write_roundTrip [([], [7]), ([1], [])] (by decide +kernel)
    (fun p hp => ⟨1, _, (constructRecord_eq ⟨1, p.1, p.2⟩).trans (if_pos (by
      rcases List.mem_pair.mp hp with rfl | rfl <;> decide +kernel))⟩)
    (by decide +kernel) (init "t.sst" 0) (fun _ => none) 0
  ⟨trip.2.2.2.1 _ List.mem_cons_self, trip.2.2.2.2.2.1⟩

end SSTable

end Logvine
