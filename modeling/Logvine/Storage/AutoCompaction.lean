import Logvine.Base.Runs
import Logvine.Storage.DamagedTables
import Logvine.Storage.EngineRun

/-!
# Compactions that flushes start

A flush that has come to its end asks for a compaction, which is run if level 0 has more
tables than the threshold.

- `needsCompaction`, `mayStartCompaction`: the test, and the compaction up to its end;
- `compact_level0`: a compaction of readable tables takes all of level 0 to one table of level 1;
- `levels_run`: calls made one after the other on a new engine keep the number of tables small;
  it depends on the number of flushes alone.

The test is `compaction.py`, 24–30, and asks for more than `L0_THRESHOLD = 2` tables (14);
`flush` asks at its end (`engine.py`, 319). `compact` is a thread of its own in the source;
here it has ended when the next call is made.
-/

namespace Logvine

open Layer SSTableManager

namespace CompactionManager

/-- `L0_THRESHOLD`. -/
def l0Threshold : Nat := 2

/-- `CompactionManager._needs_compaction`. -/
def needsCompaction (manifest : Manifest) : Bool :=
  let level0Count := (manifest.getLevelSstables 0).length
  decide (l0Threshold < level0Count)

/-- `CompactionManager.may_start_compaction` while no compaction is running, and the one it
starts. -/
def mayStartCompaction (storagePath : Path) (timeNs nowMs : Nat) (t : Tables) : Tables :=
  if needsCompaction t.manifest then compact storagePath timeNs nowMs t else t

/-- What level 0 is merged to can be written: its positions fit their fields. -/
def MergeFits (t : Tables) : Prop :=
  ∀ pairs ∈ (mergeSstables t.files (levelOrder t.manifest 0)).toOption, (SSTable.dataBytes pairs).length < 2 ^ 64

instance (t : Tables) : Decidable (MergeFits t) := inferInstanceAs (Decidable (∀ pairs ∈ Except.toOption _, _))

/-- Keys and values of merged tables have come from tables. -/
theorem fits_merged {files : Files} {infos : List SSTableMeta} (h : ∀ m ∈ infos, Readable files m)
    {merged : List (Bytes × Bytes)} (hasc : Ascending merged)
    (hmerged : assoc merged = resolve (infos.map (tableLayer files)))
    (hdata : (SSTable.dataBytes merged).length < 2 ^ 64) : SSTable.Fits merged := by
  have hpair : ∀ p ∈ merged, p.1.length < 2 ^ 32 ∧ p.2.length < 2 ^ 32 := by
    intro p hp
    have hget : assoc merged p.1 = some p.2 := (assoc_eq_some_iff hasc.nodup).mpr hp
    rw [hmerged] at hget
    obtain ⟨layer, hlayer, hp⟩ := exists_of_resolve hget
    obtain ⟨m, hm, rfl⟩ := List.mem_map.mp hlayer
    obtain ⟨pairs, hlists⟩ := h m hm
    rw [tableLayer_of_lists hlists] at hp
    have hmem := mem_of_assoc hp
    exact ⟨hlists.holds.fits.key p hmem, hlists.holds.fits.value p hmem⟩
  exact ⟨fun p hp => (hpair p hp).1, fun p hp => (hpair p hp).2, hdata⟩

/-- **A compaction takes level 0 to one table** of level 1. -/
theorem compact_level0 {storagePath : Path} {timeNs : Nat} {t : Tables} (hr : t.Readable)
    (hfresh : ¬t.Listed (compactedPath storagePath timeNs)) (hne : t.manifest.getLevelSstables 0 ≠ [])
    (hfits : MergeFits t) (nowMs : Nat) :
    (compact storagePath timeNs nowMs t).manifest.getLevelSstables 0 = [] ∧
      (∃ metadata, (compact storagePath timeNs nowMs t).manifest.getLevelSstables 1 =
        t.manifest.getLevelSstables 1 ++ [metadata]) ∧
      deeperOrder (compact storagePath timeNs nowMs t).manifest = deeperOrder t.manifest := by
  have hlevel0 : ∀ m ∈ levelOrder t.manifest 0, Readable t.files m :=
    fun m hm => hr m (mem_readOrder_of_levelOrder hm)
  have hnonempty : levelOrder t.manifest 0 ≠ [] := by
    intro hnil
    refine hne (List.eq_nil_iff_forall_not_mem.mpr fun m hm => ?_)
    have hmem : m ∈ levelOrder t.manifest 0 := (mem_newestFirst _).mpr hm
    rw [hnil] at hmem
    cases hmem
  obtain ⟨pairs, hmerge, hasc, hlayer⟩ := mergeSstables_eq hlevel0
  have hdata : (SSTable.dataBytes pairs).length < 2 ^ 64 := hfits pairs (by rw [hmerge]; rfl)
  obtain ⟨metadata, hpath, hcompact⟩ := compact_merged storagePath timeNs nowMs hmerge
    (merged_ne_nil hnonempty hlevel0 hlayer) (fits_merged hlevel0 hasc hlayer hdata)
  have hlisted : metadata ∈ (compact storagePath timeNs nowMs t).manifest.getLevelSstables 1 := by
    rw [hcompact, (files_removeOldSstableFiles _ _ metadata.path).1, (foldl_removeSstable _ _).2.2]
    show metadata ∈ (t.manifest.addEntry 1 metadata).getLevelSstables 1
    rw [Manifest.getLevelSstables_addEntry, if_pos rfl]
    exact List.mem_append_right _ List.mem_cons_self
  rcases compact_cases hr hfresh with ⟨level0, touched, -, htracks⟩ | ⟨recorded, merged, htracks, -⟩
  · -- the new table is listed, so the run has not been refused
    rw [htracks.atLevel1, List.append_nil] at hlisted
    exact absurd ⟨metadata, mem_readOrder.mpr ⟨1, hlisted⟩, hpath⟩ hfresh
  · refine ⟨?_, ⟨recorded, htracks.atLevel1⟩, htracks.deeper⟩
    rw [htracks.atLevel0, List.filter_eq_nil_iff]
    intro m hm hkept
    exact of_decide_eq_true hkept (List.mem_map_of_mem ((mem_newestFirst _).mpr hm))

end CompactionManager

namespace LSMStorageEngine

section Runs

variable {L : Type} [Log L]

/-- A flush comes to its end, where it asks for a compaction: there is something to flush, and
nothing raises. -/
def flushEnds (e : LSMStorageEngine L) (nameMs createdMs : Nat) : Bool :=
  match e.memtable.getFrozenItems.sortedItems with
  | [] => false
  | item :: items =>
    match e.tables.write (.init (sstablePath e.storagePath nameMs) 0) (item :: items) with
    | (_, .error _) => false
    | (t, .ok sstable) =>
      match t.buildMetadata sstable 0 createdMs with
      | .error _ => false
      | .ok _ => true

/-- `LSMStorageEngine.flush` with what it starts. -/
def flushCompacting (e : LSMStorageEngine L) (nameMs createdMs nowNs compactedMs : Nat) : LSMStorageEngine L :=
  let e' := e.flush nameMs createdMs
  if e.flushEnds nameMs createdMs then
    { e' with tables := CompactionManager.mayStartCompaction e'.storagePath nowNs compactedMs e'.tables }
  else e'

/-- A call on an engine: one that neither flushes nor compacts, or a flush with what it starts. -/
inductive AutoOp where
  | call (op : Op) (hop : op.createdMs = none)
  | flush (nameMs createdMs nowNs compactedMs : Nat)

/-- Make a call. -/
def AutoOp.run (e : LSMStorageEngine L) : AutoOp → LSMStorageEngine L
  | .call op _ => (op.run e).1
  | .flush nameMs createdMs nowNs compactedMs => e.flushCompacting nameMs createdMs nowNs compactedMs

/-- The names of the tables that are flushed. -/
def AutoOp.flushed (e : LSMStorageEngine L) : AutoOp → List Nat
  | .call _ _ => []
  | .flush nameMs createdMs _ _ => if e.flushEnds nameMs createdMs then [nameMs] else []

/-- No name is used twice, and what is merged fits a table. -/
def AutoOp.Free (e : LSMStorageEngine L) : AutoOp → Prop
  | .call _ _ => True
  | .flush nameMs createdMs nowNs compactedMs =>
    NameOk e (.flush nameMs createdMs) ∧
      (CompactionManager.needsCompaction (e.flush nameMs createdMs).tables.manifest = true →
        NameOk (e.flush nameMs createdMs) (.compact nowNs compactedMs) ∧
          CompactionManager.MergeFits (e.flush nameMs createdMs).tables)

instance (e : LSMStorageEngine L) : (op : AutoOp) → Decidable (op.Free e)
  | .call _ _ => .isTrue trivial
  | .flush nameMs createdMs nowNs compactedMs =>
    inferInstanceAs (Decidable ((∀ path ∈ (Op.flush nameMs createdMs).target e, ¬e.tables.Listed path) ∧
      (_ → (∀ path ∈ (Op.compact nowNs compactedMs).target _, ¬Tables.Listed _ path) ∧ _)))

/-- A flush records one table in level 0, if it comes to its end, and none otherwise. -/
theorem levels_flush (e : LSMStorageEngine L) (nameMs createdMs : Nat) :
    (∃ new, (e.flush nameMs createdMs).tables.manifest.getLevelSstables 0 =
        e.tables.manifest.getLevelSstables 0 ++ new ∧ new.length = (e.flushEnds nameMs createdMs).toNat) ∧
      (e.flush nameMs createdMs).tables.manifest.getLevelSstables 1 = e.tables.manifest.getLevelSstables 1 ∧
      deeperOrder (e.flush nameMs createdMs).tables.manifest = deeperOrder e.tables.manifest := by
  rw [flush, flushEnds]
  cases e.memtable.getFrozenItems.sortedItems with
  | nil => exact ⟨⟨[], (List.append_nil _).symm, rfl⟩, rfl, rfl⟩
  | cons item items =>
    have hmanifest := Tables.manifest_write e.tables (.init (sstablePath e.storagePath nameMs) 0) (item :: items)
    dsimp only
    cases hwrite : e.tables.write (.init (sstablePath e.storagePath nameMs) 0) (item :: items) with
    | mk t written =>
      rw [hwrite] at hmanifest
      have hsame : t.manifest = e.tables.manifest := hmanifest
      rw [← hsame]
      cases written with
      | error err => exact ⟨⟨[], (List.append_nil _).symm, rfl⟩, rfl, rfl⟩
      | ok sstable =>
        dsimp only
        cases t.buildMetadata sstable 0 createdMs with
        | error err => exact ⟨⟨[], (List.append_nil _).symm, rfl⟩, rfl, rfl⟩
        | ok metadata =>
          refine ⟨⟨[metadata], ?_, rfl⟩, ?_, deeperOrder_set t.manifest _ (Nat.zero_le 1) rfl⟩
          · show (t.manifest.addEntry 0 metadata).getLevelSstables 0 = _
            rw [Manifest.getLevelSstables_addEntry, if_pos rfl]
          · show (t.manifest.addEntry 0 metadata).getLevelSstables 1 = _
            rw [Manifest.getLevelSstables_addEntry, if_neg (by decide)]

/-- How many tables there are after so many flushes. -/
structure Levels (e : LSMStorageEngine L) (n : Nat) : Prop where
  sound : Sound e
  level0 : (e.tables.manifest.getLevelSstables 0).length = n % 3
  level1 : (e.tables.manifest.getLevelSstables 1).length = n / 3
  deeper : deeperOrder e.tables.manifest = []

variable {e : LSMStorageEngine L} {n : Nat}

theorem Levels.call (h : Levels e n) {op : Op} (hop : op.createdMs = none) : Levels (op.run e).1 n := by
  have htables := (wrote_run e op hop).tables
  refine ⟨⟨?_, ?_⟩, ?_, ?_, ?_⟩ <;> rw [htables]
  · exact h.sound.readable
  · exact h.sound.distinct
  · exact h.level0
  · exact h.level1
  · exact h.deeper

/-- **A flush with what it starts**: the third table in level 0 is one too many. -/
theorem Levels.flushCompacting (h : Levels e n) {nameMs createdMs nowNs compactedMs : Nat}
    (hfree : (AutoOp.flush nameMs createdMs nowNs compactedMs).Free e) :
    Levels (e.flushCompacting nameMs createdMs nowNs compactedMs)
      (n + (e.flushEnds nameMs createdMs).toNat) := by
  obtain ⟨hname, hcompact⟩ := hfree
  obtain ⟨⟨new, hlevel0, hnew⟩, hlevel1, hdeeper⟩ := levels_flush e nameMs createdMs
  have hsound : Sound (e.flush nameMs createdMs) := (sound_run h.sound hname).1
  have hcount : ((e.flush nameMs createdMs).tables.manifest.getLevelSstables 0).length =
      n % 3 + (e.flushEnds nameMs createdMs).toNat := by rw [hlevel0, List.length_append, h.level0, hnew]
  rw [LSMStorageEngine.flushCompacting]
  cases hends : e.flushEnds nameMs createdMs with
  | false =>
    rw [hends] at hcount
    exact ⟨hsound, hcount, hlevel1 ▸ h.level1, hdeeper.trans h.deeper⟩
  | true =>
    rw [hends] at hcount
    have hcount : ((e.flush nameMs createdMs).tables.manifest.getLevelSstables 0).length = n % 3 + 1 := hcount
    rw [if_pos rfl, CompactionManager.mayStartCompaction]
    split
    · next hneeds =>
      have hthree : CompactionManager.l0Threshold < n % 3 + 1 := hcount ▸ of_decide_eq_true hneeds
      have htwo : n % 3 = 2 := by
        rw [CompactionManager.l0Threshold] at hthree
        omega
      obtain ⟨hunused, hfits⟩ := hcompact hneeds
      have hne : (e.flush nameMs createdMs).tables.manifest.getLevelSstables 0 ≠ [] := by
        rw [← List.length_pos_iff, hcount]
        omega
      have hfresh := hunused _ (target_compact (e.flush nameMs createdMs) nowNs compactedMs hne)
      obtain ⟨hempty, ⟨metadata, hadded⟩, hsame⟩ :=
        CompactionManager.compact_level0 hsound.readable hfresh hne hfits compactedMs
      refine ⟨(sound_run hsound hunused).1, ?_, ?_, hsame.trans (hdeeper.trans h.deeper)⟩
      · show (Manifest.getLevelSstables _ 0).length = _
        rw [hempty, List.length_nil]
        show 0 = (n + 1) % 3
        omega
      · show (Manifest.getLevelSstables _ 1).length = _
        rw [hadded, List.length_append, hlevel1, h.level1]
        show n / 3 + 1 = (n + 1) / 3
        omega
    · next hneeds =>
      have hfew : ¬CompactionManager.l0Threshold < n % 3 + 1 := fun hlt => hneeds (decide_eq_true (hcount ▸ hlt))
      rw [CompactionManager.l0Threshold] at hfew
      refine ⟨hsound, ?_, ?_, hdeeper.trans h.deeper⟩
      · rw [hcount]
        show n % 3 + 1 = (n + 1) % 3
        omega
      · rw [hlevel1, h.level1]
        show n / 3 = (n + 1) / 3
        omega

theorem levels_step {done : List Nat} (h : Levels e done.length) {op : AutoOp} (hfree : op.Free e) :
    Levels (op.run e) (done ++ op.flushed e).length := by
  cases op with
  | call op hop =>
    rw [AutoOp.flushed, List.append_nil]
    exact h.call hop
  | flush nameMs createdMs nowNs compactedMs =>
    have hflushed : ((AutoOp.flush nameMs createdMs nowNs compactedMs).flushed e).length =
        (e.flushEnds nameMs createdMs).toNat := by
      rw [AutoOp.flushed]
      cases e.flushEnds nameMs createdMs <;> rfl
    rw [List.length_append, hflushed]
    exact h.flushCompacting hfree

end Runs

section Fresh

variable [Zlib]

/-- **The number of tables** depends on the number of flushes alone: level 0 keeps fewer than
three, every three have become one of level 1, and these are all a lookup has to consult. -/
theorem levels_run (storagePath : Path) (memtableMaxSize : Int) (ops : List AutoOp)
    (hfree : Runs.Along AutoOp.run (fun e op => op.Free e) (fresh storagePath memtableMaxSize) ops) :
    let e := Runs.run AutoOp.run (fresh storagePath memtableMaxSize) ops
    let n := (Runs.collect AutoOp.run AutoOp.flushed (fresh storagePath memtableMaxSize) ops).length
    (e.tables.manifest.getLevelSstables 0).length = n % 3 ∧
      (e.tables.manifest.getLevelSstables 1).length = n / 3 ∧
      (readOrder e.tables.manifest).length = n % 3 + n / 3 := by
  intro e n
  have hstart : Levels (fresh storagePath memtableMaxSize) ([] : List Nat).length :=
    ⟨sound_fresh storagePath memtableMaxSize, rfl, rfl, rfl⟩
  have hlevels := @Runs.run_collect_invariant _ _ _ AutoOp.run AutoOp.flushed
    (fun e done => Levels e done.length) (fun e op => op.Free e)
    (fun e op done h hfree => levels_step h hfree) _ ops [] hstart hfree
  rw [List.nil_append] at hlevels
  refine ⟨hlevels.level0, hlevels.level1, ?_⟩
  rw [readOrder_eq, hlevels.deeper, List.append_nil, List.length_append]
  have hlength : ∀ level, (levelOrder e.tables.manifest level).length =
      (e.tables.manifest.getLevelSstables level).length := fun level => (newestFirst_perm _ _).length_eq
  rw [hlength, hlength]
  exact congrArg₂ (· + ·) hlevels.level0 hlevels.level1

end Fresh

/-- Four flushes, of which the third starts a compaction. -/
def fourFlushes : List AutoOp :=
  [.call (.put [1] [65]) rfl, .call .rotate rfl, .flush 1 2 1000000 3, .call (.put [2] [66]) rfl, .call .rotate rfl,
    .flush 4 5 4000000 6, .flush 7 8 7000000 9, .call (.delete [1]) rfl, .call .rotate rfl, .flush 10 11 10000000 12,
    .call (.put [1] [67]) rfl, .call .rotate rfl, .flush 13 14 13000000 15]

/-- One table of the last flush, and one made of those of the first three. -/
theorem levels_run_fourFlushes :
    let e := Runs.run AutoOp.run (fresh "db" 1000) fourFlushes
    (e.tables.manifest.getLevelSstables 0).length = 1 ∧ (e.tables.manifest.getLevelSstables 1).length = 1 ∧
      (readOrder e.tables.manifest).length = 2 := by
  have hflushes : (Runs.collect AutoOp.run AutoOp.flushed (fresh "db" 1000) fourFlushes).length = 4 := by
    decide +kernel
  have h := levels_run "db" 1000 fourFlushes (by decide +kernel)
  rw [hflushes] at h
  exact h

end LSMStorageEngine

end Logvine
