import Logvine.Base.KWayMerge
import Logvine.Storage.Tables

/-!
# Compaction

`CompactionManager.compact` merges the tables of level 0 into one new table of
level 1, records it, removes the merged entries from the manifest one by one and
unlinks their files. `compact` is the whole run; `CompactPc.next` is the same run
step by step, so that other things can happen in between.

- `mergeSstables_eq`: the merged table answers as the stack of the merged ones;
- `compact_reached`: the steps of a run lead to `compact`;
- `Tracks`: how the tables during a run relate to what they would be without it;
- `pcInv_next`: every step of the run keeps that relation.

The source is `compaction.py`, 110–164. The merge is a generator that the writing of the new
table drains (127–131); nothing is listed or removed meanwhile, so both are one step here.
Every change of the manifest is a step, and so is its saving, since an exception may come in
between; `_remove_old_sstable_files` catches its own exceptions (158–163), file by file.
-/

namespace Logvine

open Layer SSTableManager

namespace CompactionManager

/-- `CompactionManager.merge_sstables`. The iterators are lazy in the source; the
first exception any of them meets ends the merge either way. -/
def mergeSstables (files : Files) (infos : List SSTableMeta) : Except Error (List (Bytes × Bytes)) := do
  let iterators ← infos.mapM fun info => (metadataToSstable info).iterItems files
  return kwayMerge iterators

/-- `CompactionManager._remove_old_sstable_files`: a file that cannot be unlinked
is passed over. -/
def removeOldSstableFiles (t : Tables) (infos : List SSTableMeta) : Tables :=
  infos.foldl (fun t info => t.setFile info.path none) t

/-- `Manifest.remove_sstable` for level 0. -/
def removeSstable (t : Tables) (info : SSTableMeta) : Tables :=
  { t with manifest := t.manifest.removeSstable 0 info.path }

/-- `CompactionManager.compact`, with its two readings of the clock. Whatever
raises ends it. -/
def compact (storagePath : Path) (timeNs nowMs : Nat) (t : Tables) : Tables :=
  let level0 := (iterSstableMetadata t.manifest (some 0) true).map Prod.snd
  if level0 = [] then t
  else
    let newPath := compactedPath storagePath timeNs
    -- the merge is drawn from within the write, which unlinks its file when that raises
    match mergeSstables t.files level0 with
    | .error _ => t.setFile newPath none
    | .ok merged =>
      match t.write (.init newPath 1) merged with
      | (t, .error _) => t
      | (t, .ok newSstable) =>
        match t.buildMetadata newSstable 1 nowMs with
        | .error _ => t
        | .ok metadata =>
          let t := t.addSstable 1 metadata
          -- the entries merged are removed by path, from the newest on
          let t := level0.foldl removeSstable t
          removeOldSstableFiles t level0

/-! ## Merging tables -/

/-- A readable table lists its pairs. -/
theorem iterItems_of_lists {files : Files} {info : SSTableMeta} {pairs : List (Bytes × Bytes)}
    (h : Lists files info pairs) : (metadataToSstable info).iterItems files = .ok pairs :=
  SSTable.iterItems_of_holds (t := metadataToSstable info) h.holds (.inl rfl)

/-- **The merge of readable tables** is ascending and answers as their stack. -/
theorem mergeSstables_eq {files : Files} {infos : List SSTableMeta}
    (h : ∀ m ∈ infos, Readable files m) :
    ∃ merged, mergeSstables files infos = .ok merged ∧ Ascending merged ∧
      assoc merged = resolve (infos.map (tableLayer files)) := by
  have hread : ∃ inputs : List (List (Bytes × Bytes)),
      (infos.mapM fun info => (metadataToSstable info).iterItems files) = .ok inputs ∧
        (∀ l ∈ inputs, Ascending l) ∧ inputs.map assoc = infos.map (tableLayer files) := by
    induction infos with
    | nil => exact ⟨[], rfl, by simp, rfl⟩
    | cons info infos ih =>
      obtain ⟨pairs, hinfo⟩ := h info List.mem_cons_self
      obtain ⟨inputs, hrun, hasc, hlayers⟩ := ih fun m hm => h m (List.mem_cons_of_mem _ hm)
      refine ⟨pairs :: inputs, ?_, List.forall_mem_cons.mpr ⟨hinfo.holds.ascending, hasc⟩, ?_⟩
      · rw [List.mapM_cons, iterItems_of_lists hinfo, hrun]
        rfl
      · rw [List.map_cons, List.map_cons, hlayers, tableLayer_of_lists hinfo]
  obtain ⟨inputs, hrun, hasc, hlayers⟩ := hread
  refine ⟨kwayMerge inputs, ?_, ascending_kwayMerge hasc, ?_⟩
  · rw [mergeSstables, hrun]
    rfl
  · rw [assoc_kwayMerge hasc, hlayers]

/-- The merge of some readable tables is not empty. -/
theorem merged_ne_nil {files : Files} {infos : List SSTableMeta} (hne : infos ≠ [])
    (h : ∀ m ∈ infos, Readable files m) {merged : List (Bytes × Bytes)}
    (hm : assoc merged = resolve (infos.map (tableLayer files))) : merged ≠ [] := by
  rintro rfl
  obtain ⟨info, infos, rfl⟩ := List.exists_cons_of_ne_nil hne
  obtain ⟨pairs, hinfo⟩ := h info List.mem_cons_self
  obtain ⟨p, ps, rfl⟩ := List.exists_cons_of_ne_nil hinfo.nonempty
  -- the first key of the first table is answered
  have hfirst := congrFun hm p.1
  rw [List.map_cons, resolve_cons, above_apply, tableLayer_of_lists hinfo, assoc_cons, if_pos rfl]
    at hfirst
  cases hfirst

/-! ## One step after the other -/

/-- How far a run of `compact` has come, with the local variables that are still
used: the merged tables, the new table, its metadata, the entries still to be
removed or unlinked. `added` and `removed` stand between a change of the manifest
in memory and its saving. -/
inductive CompactPc where
  | idle
  | merging (level0 : List SSTableMeta)
  | written (level0 : List SSTableMeta) (newSstable : SSTable)
  | described (level0 : List SSTableMeta) (metadata : SSTableMeta)
  | added (level0 : List SSTableMeta)
  | removing (level0 rest : List SSTableMeta)
  | removed (level0 rest : List SSTableMeta)
  | unlinking (rest : List SSTableMeta)
  | returned
  | raised (e : Error)

/-- One step of a run. -/
def next (storagePath : Path) (timeNs nowMs : Nat) (t : Tables) : CompactPc → Tables × CompactPc
  | .idle =>
    let level0 := (iterSstableMetadata t.manifest (some 0) true).map Prod.snd
    if level0 = [] then (t, .returned) else (t, .merging level0)
  | .merging level0 =>
    let newPath := compactedPath storagePath timeNs
    match mergeSstables t.files level0 with
    | .error e => (t.setFile newPath none, .raised e)
    | .ok merged =>
      match t.write (.init newPath 1) merged with
      | (t, .error e) => (t, .raised e)
      | (t, .ok newSstable) => (t, .written level0 newSstable)
  | .written level0 newSstable =>
    match t.buildMetadata newSstable 1 nowMs with
    | .error e => (t, .raised e)
    | .ok metadata => (t, .described level0 metadata)
  | .described level0 metadata =>
    ({ t with manifest := t.manifest.addEntry 1 metadata }, .added level0)
  | .added level0 => ({ t with manifest := t.manifest.save }, .removing level0 level0)
  -- no entry is left to be removed
  | .removing level0 [] => (t, .unlinking level0)
  | .removing level0 (info :: rest) =>
    ({ t with manifest := t.manifest.removeEntry 0 info.path }, .removed level0 rest)
  | .removed level0 rest => ({ t with manifest := t.manifest.save }, .removing level0 rest)
  | .unlinking [] => (t, .returned)
  | .unlinking (info :: rest) => (t.setFile info.path none, .unlinking rest)
  | .returned => (t, .returned)
  | .raised e => (t, .raised e)

/-- A step of a run with some readings of the clock. -/
def Step (storagePath : Path) (timeNs nowMs : Nat) (s s' : Tables × CompactPc) : Prop :=
  next storagePath timeNs nowMs s.1 s.2 = s'

/-- Any number of steps of one run. -/
abbrev Steps (storagePath : Path) (timeNs nowMs : Nat) : Tables × CompactPc → Tables × CompactPc → Prop :=
  Relation.ReflTransGen (Step storagePath timeNs nowMs)

section Reached

variable (storagePath : Path) (timeNs nowMs : Nat)

/-- The loop over `remove_sstable`, as steps. -/
theorem steps_removing (t : Tables) (level0 done rest : List SSTableMeta) :
    Steps storagePath timeNs nowMs (t, .removing level0 (done ++ rest))
      (done.foldl removeSstable t, .removing level0 rest) := by
  induction done generalizing t with
  | nil => exact .refl
  | cons info done ih => exact .head rfl (.head rfl (ih _))

/-- The loop over `os.unlink`, as steps. -/
theorem steps_unlinking (t : Tables) (rest : List SSTableMeta) :
    Steps storagePath timeNs nowMs (t, .unlinking rest) (removeOldSstableFiles t rest, .returned) := by
  induction rest generalizing t with
  | nil => exact .single rfl
  | cons info rest ih => exact .head rfl (ih _)

/-- Any number of steps of the deterministic successor. -/
theorem steps_iterate (s : Tables × CompactPc) (n : Nat) :
    Steps storagePath timeNs nowMs s ((fun s => next storagePath timeNs nowMs s.1 s.2)^[n] s) := by
  induction n with
  | zero => exact .refl
  | succ n ih =>
    rw [Function.iterate_succ_apply']
    exact ih.tail rfl

section Recorded

variable {t t' : Tables} {merged : List (Bytes × Bytes)} {newSstable : SSTable} {metadata : SSTableMeta}

/-- With tables in level 0, the compaction takes them as they are now. -/
theorem step_idle (hne : levelOrder t.manifest 0 ≠ []) :
    Step storagePath timeNs nowMs (t, .idle) (t, .merging (levelOrder t.manifest 0)) := by
  rw [Step, next, map_snd_iterSstableMetadata_level]
  exact if_neg hne

/-- From the start to the saved entry of the new table. -/
theorem steps_recorded (hne : levelOrder t.manifest 0 ≠ [])
    (hmerge : mergeSstables t.files (levelOrder t.manifest 0) = .ok merged)
    (hwrite : t.write (.init (compactedPath storagePath timeNs) 1) merged = (t', .ok newSstable))
    (hbuild : t'.buildMetadata newSstable 1 nowMs = .ok metadata) :
    Steps storagePath timeNs nowMs (t, .idle) (t'.addSstable 1 metadata,
      .removing (levelOrder t.manifest 0) (levelOrder t.manifest 0)) := by
  have hwritten : Step storagePath timeNs nowMs (t, .merging (levelOrder t.manifest 0))
      (t', .written (levelOrder t.manifest 0) newSstable) := by
    simp only [Step, next, hmerge, hwrite]
  have hdescribed : Step storagePath timeNs nowMs (t', .written (levelOrder t.manifest 0) newSstable)
      (t', .described (levelOrder t.manifest 0) metadata) := by
    simp only [Step, next, hbuild]
  exact .head (step_idle storagePath timeNs nowMs hne)
    (.head hwritten (.head hdescribed (.head rfl (.head rfl .refl))))

end Recorded

/-- **The steps add up to `compact`**, which has then returned or caught an
exception. -/
theorem compact_reached (t : Tables) :
    ∃ pc, (pc = .returned ∨ ∃ e, pc = .raised e) ∧
      Steps storagePath timeNs nowMs (t, .idle) (compact storagePath timeNs nowMs t, pc) := by
  unfold compact
  dsimp only
  rw [map_snd_iterSstableMetadata_level]
  split
  · next hnil =>
    refine ⟨.returned, .inl rfl, .single ?_⟩
    rw [Step, next, map_snd_iterSstableMetadata_level]
    exact if_pos hnil
  · next hne =>
    have hstart := step_idle storagePath timeNs nowMs hne
    split
    · next e hmerge =>
      refine ⟨.raised e, .inr ⟨e, rfl⟩, .head hstart (.single ?_)⟩
      simp only [Step, next, hmerge]
    · next merged hmerge =>
      split
      · next t' e hwrite =>
        refine ⟨.raised e, .inr ⟨e, rfl⟩, .head hstart (.single ?_)⟩
        simp only [Step, next, hmerge, hwrite]
      · next t' newSstable hwrite =>
        split
        · next e hbuild =>
          have hwritten : Step storagePath timeNs nowMs (t, .merging (levelOrder t.manifest 0))
              (t', .written (levelOrder t.manifest 0) newSstable) := by
            simp only [Step, next, hmerge, hwrite]
          refine ⟨.raised e, .inr ⟨e, rfl⟩, .head hstart (.head hwritten (.single ?_))⟩
          simp only [Step, next, hbuild]
        · next metadata hbuild =>
          have hremoved := steps_removing storagePath timeNs nowMs (t'.addSstable 1 metadata)
            (levelOrder t.manifest 0) (levelOrder t.manifest 0) []
          rw [List.append_nil] at hremoved
          exact ⟨.returned, .inl rfl, (steps_recorded storagePath timeNs nowMs hne hmerge hwrite
            hbuild).trans (hremoved.trans (.head rfl (steps_unlinking storagePath timeNs nowMs _ _)))⟩

end Reached

/-! ## A run against the tables without it -/

/-- The tables `t` during a run compared with what they would be without it: the
merged tables `level0` were the older part of level 0, `removed` of them are gone,
`added` stand at the end of level 1, and only the files `touched` differ. -/
structure Tracks (without t : Tables) (level0 added removed : List SSTableMeta)
    (touched : List Path) : Prop where
  atLevel0 : t.manifest.getLevelSstables 0 = (without.manifest.getLevelSstables 0).filter fun m =>
    decide (m.path ∉ removed.map SSTableMeta.path)
  atLevel1 : t.manifest.getLevelSstables 1 = without.manifest.getLevelSstables 1 ++ added
  deeper : deeperOrder t.manifest = deeperOrder without.manifest
  order : ∃ newer, levelOrder without.manifest 0 = newer ++ level0 ∧
    ∀ m ∈ newer, m.path ∉ level0.map SSTableMeta.path
  files : ∀ path ∉ touched, t.files path = without.files path

/-- The new table: readable, answering as the merged ones, under the given name and
with the given creation time. -/
structure NewTable (newPath : Path) (nowMs : Nat) (without t : Tables) (level0 : List SSTableMeta)
    (metadata : SSTableMeta) (merged : List (Bytes × Bytes)) : Prop where
  merges : level0 ≠ []
  lists : Lists t.files metadata merged
  answers : assoc merged = resolve (level0.map (tableLayer without.files))
  path : metadata.path = newPath
  created : metadata.createdAtMs = some nowMs

section Tracking

variable {without t : Tables} {level0 added removed : List SSTableMeta} {touched : List Path}

/-- At the start the run has changed nothing. -/
theorem tracks_refl (t : Tables) : Tracks t t [] [] [] [] :=
  ⟨by simp, by simp, rfl, ⟨levelOrder t.manifest 0, by simp, by simp⟩, fun _ _ => rfl⟩

/-- Nothing has happened to the tables yet. -/
theorem tracks_self (t : Tables) : Tracks t t (levelOrder t.manifest 0) [] [] [] :=
  ⟨by simp, by simp, rfl, ⟨[], rfl, by simp⟩, fun _ _ => rfl⟩

/-- Saving the manifest changes nothing that is compared. -/
theorem Tracks.save (h : Tracks without t level0 added removed touched) :
    Tracks without { t with manifest := t.manifest.save } level0 added removed touched :=
  ⟨h.atLevel0, h.atLevel1, h.deeper, h.order, h.files⟩

/-- Writing a file adds it to those that differ. -/
theorem Tracks.setFile (h : Tracks without t level0 added removed touched) (path : Path)
    (content : Option Bytes) :
    Tracks without (t.setFile path content) level0 added removed (path :: touched) := by
  refine ⟨h.atLevel0, h.atLevel1, h.deeper, h.order, ?_⟩
  intro p hp
  rw [List.mem_cons, not_or] at hp
  exact (Function.update_of_ne hp.1 ..).trans (h.files p hp.2)

/-- The entries merged are entries of level 0. -/
theorem Tracks.mem (h : Tracks without t level0 added removed touched) {m : SSTableMeta}
    (hm : m ∈ level0) : m ∈ levelOrder without.manifest 0 := by
  obtain ⟨newer, horder, -⟩ := h.order
  rw [horder]
  exact List.mem_append_right _ hm

theorem mem_readOrder_of_levelOrder {manifest : Manifest} {level : Nat} {m : SSTableMeta}
    (hm : m ∈ levelOrder manifest level) : m ∈ readOrder manifest :=
  mem_readOrder.mpr ⟨level, (mem_newestFirst _).mp hm⟩

/-- The merged tables are named by the manifest without the run. -/
theorem Tracks.listed (h : Tracks without t level0 added removed touched) {m : SSTableMeta}
    (hm : m ∈ level0) : without.Listed m.path :=
  ⟨m, mem_readOrder_of_levelOrder (h.mem hm), rfl⟩

/-- The entry of the new table stands last in level 1. -/
theorem Tracks.addEntry (h : Tracks without t level0 added removed touched) (m : SSTableMeta) :
    Tracks without { t with manifest := t.manifest.addEntry 1 m } level0 (added ++ [m]) removed
      touched := by
  refine ⟨?_, ?_, ?_, h.order, h.files⟩
  · rw [Manifest.getLevelSstables_addEntry, if_neg (by decide), h.atLevel0]
  · rw [Manifest.getLevelSstables_addEntry, if_pos rfl, h.atLevel1, List.append_assoc]
  · exact (deeperOrder_set t.manifest _ (Nat.le_refl 1) rfl).trans h.deeper

/-- A merged entry is removed from level 0. -/
theorem Tracks.removeEntry (h : Tracks without t level0 added removed touched) (m : SSTableMeta) :
    Tracks without { t with manifest := t.manifest.removeEntry 0 m.path } level0 added
      (removed ++ [m]) touched := by
  refine ⟨?_, ?_, ?_, h.order, h.files⟩
  · rw [Manifest.getLevelSstables_removeEntry, if_pos rfl, h.atLevel0, List.filter_filter]
    refine List.filter_congr ?_
    intro x _
    simp only [List.map_append, List.map_cons, List.map_nil, List.mem_append, List.mem_singleton,
      not_or, Bool.decide_and, Bool.and_comm]
  · rw [Manifest.getLevelSstables_removeEntry, if_neg (by decide), h.atLevel1]
  · exact (deeperOrder_set t.manifest _ (Nat.zero_le 1) rfl).trans h.deeper

/-- A table that flush records meanwhile goes on top on both sides. -/
theorem Tracks.flushed (h : Tracks without t level0 added removed touched) {m : SSTableMeta}
    {content : Option Bytes} (hpath : m.path ∉ touched) (hlevel0 : m.path ∉ level0.map SSTableMeta.path)
    (hremoved : m.path ∉ removed.map SSTableMeta.path)
    (hnew : ∀ m' ∈ without.manifest.getLevelSstables 0, m'.stamp ≤ m.stamp) :
    Tracks ((without.setFile m.path content).addSstable 0 m) ((t.setFile m.path content).addSstable 0 m)
      level0 added removed touched := by
  refine ⟨?_, ?_, ?_, ?_, ?_⟩
  · show (t.manifest.addEntry 0 m).getLevelSstables 0 =
      ((without.manifest.addEntry 0 m).getLevelSstables 0).filter _
    rw [Manifest.getLevelSstables_addEntry, if_pos rfl, Manifest.getLevelSstables_addEntry, if_pos rfl,
      List.filter_append, h.atLevel0]
    simp only [List.filter_cons, hremoved, not_false_iff, decide_true, if_true, List.filter_nil]
  · show (t.manifest.addEntry 0 m).getLevelSstables 1 =
      (without.manifest.addEntry 0 m).getLevelSstables 1 ++ added
    rw [Manifest.getLevelSstables_addEntry, if_neg (by decide), Manifest.getLevelSstables_addEntry,
      if_neg (by decide), h.atLevel1]
  · exact (deeperOrder_set t.manifest _ (Nat.zero_le 1) rfl).trans
      (h.deeper.trans (deeperOrder_set without.manifest _ (Nat.zero_le 1) rfl).symm)
  · obtain ⟨newer, horder, hnewer⟩ := h.order
    refine ⟨m :: newer, ?_, ?_⟩
    · show levelOrder (without.manifest.addEntry 0 m) 0 = _
      rw [levelOrder, Manifest.getLevelSstables_addEntry, if_pos rfl, newestFirst_concat_of_le _ hnew,
        ← levelOrder, horder, List.cons_append]
    -- a table flushed meanwhile is newer than all of them and goes in front
    · intro x hx
      rcases List.mem_cons.mp hx with rfl | hx
      · exact hlevel0
      · exact hnewer x hx
  · intro p hp
    show Function.update t.files m.path content p = Function.update without.files m.path content p
    by_cases hpm : p = m.path
    · rw [hpm, Function.update_self, Function.update_self]
    · rw [Function.update_of_ne hpm, Function.update_of_ne hpm]
      exact h.files p hp

end Tracking

/-- The tables a run merges, read off as soon as it has looked at level 0. -/
def snapshot (level0 : List SSTableMeta) : CompactPc → List SSTableMeta
  | .merging level0 => level0
  | _ => level0

/-- What holds at each point of a run that merges `level0` into `newPath`. -/
def PcInv (newPath : Path) (nowMs : Nat) (without t : Tables) (level0 : List SSTableMeta) :
    CompactPc → Prop
  | .idle => level0 = [] ∧ Tracks without t [] [] [] []
  | .merging infos => infos = level0 ∧ level0 ≠ [] ∧ Tracks without t level0 [] [] []
  | .written infos newSstable => infos = level0 ∧ level0 ≠ [] ∧ newSstable.path = newPath ∧ ∃ merged,
      Tracks without t level0 [] [] [newPath] ∧ SSTable.Holds t.files newPath merged ∧
      SSTable.IndexOf newSstable merged ∧ merged ≠ [] ∧
      assoc merged = resolve (level0.map (tableLayer without.files))
  | .described infos metadata => infos = level0 ∧ ∃ merged,
      Tracks without t level0 [] [] [newPath] ∧
      NewTable newPath nowMs without t level0 metadata merged
  | .added infos => infos = level0 ∧ ∃ metadata merged,
      Tracks without t level0 [metadata] [] [newPath] ∧
      NewTable newPath nowMs without t level0 metadata merged
  | .removing infos rest | .removed infos rest => infos = level0 ∧ ∃ metadata merged done,
      level0 = done ++ rest ∧ Tracks without t level0 [metadata] done [newPath] ∧
      NewTable newPath nowMs without t level0 metadata merged
  | .unlinking rest => ∃ metadata merged done, level0 = done ++ rest ∧
      Tracks without t level0 [metadata] level0 (done.map SSTableMeta.path ++ [newPath]) ∧
      NewTable newPath nowMs without t level0 metadata merged
  | .returned => level0 = [] ∧ Tracks without t [] [] [] [] ∨ ∃ metadata merged,
      Tracks without t level0 [metadata] level0 (level0.map SSTableMeta.path ++ [newPath]) ∧
      NewTable newPath nowMs without t level0 metadata merged
  | .raised _ => Tracks without t level0 [] [] [newPath]

section PcInv

variable {newPath : Path} {nowMs : Nat} {without t : Tables} {level0 : List SSTableMeta} {pc : CompactPc}

/-- Before its first step the compaction has nothing to keep. -/
theorem pcInv_idle (t : Tables) : PcInv newPath nowMs t t [] .idle := ⟨rfl, tracks_refl t⟩

/-- **Every step of a run keeps it on track**, as long as the tables without the
run are readable and the name of the new table is not taken. -/
theorem pcInv_next {storagePath : Path} {timeNs : Nat}
    (h : PcInv (compactedPath storagePath timeNs) nowMs without t level0 pc) (hr : without.Readable)
    (hfresh : ¬without.Listed (compactedPath storagePath timeNs)) :
    PcInv (compactedPath storagePath timeNs) nowMs without (next storagePath timeNs nowMs t pc).1
      (snapshot level0 (next storagePath timeNs nowMs t pc).2)
      (next storagePath timeNs nowMs t pc).2 := by
  cases pc with
  | idle =>
    obtain ⟨rfl, htracks⟩ := h
    rw [next]
    split
    · exact .inl ⟨rfl, htracks⟩
    · next hne =>
      refine ⟨rfl, hne, htracks.atLevel0, htracks.atLevel1, htracks.deeper, ⟨[], ?_, by simp⟩,
        htracks.files⟩
      rw [snapshot, map_snd_iterSstableMetadata_level, List.nil_append, levelOrder, levelOrder,
        htracks.atLevel0]
      simp
  | merging infos =>
    obtain ⟨rfl, hne, htracks⟩ := h
    have hlayers : infos.map (tableLayer t.files) = infos.map (tableLayer without.files) :=
      List.map_congr_left fun m _ => tableLayer_congr (htracks.files m.path (by simp))
    have hreadable : ∀ m ∈ infos, SSTableManager.Readable t.files m := fun m hm =>
      (hr m (mem_readOrder_of_levelOrder (htracks.mem hm))).congr (htracks.files m.path (by simp))
    obtain ⟨merged, hmerge, hasc, hassoc⟩ := mergeSstables_eq hreadable
    rw [hlayers] at hassoc
    rw [next]
    -- the write may still raise, over a key or value that does not fit its field
    simp only [hmerge]
    cases hwrite : t.write (.init (compactedPath storagePath timeNs) 1) merged with
    | mk t' result =>
      cases result with
      | error e =>
        obtain ⟨content, heq⟩ := t.write_eq_setFile (.init (compactedPath storagePath timeNs) 1) merged
        rw [hwrite] at heq
        obtain rfl : t' = t.setFile (compactedPath storagePath timeNs) content := heq
        exact htracks.setFile _ _
      | ok newSstable =>
        obtain ⟨rfl, hpath, hindex, hholds⟩ := Tables.write_ok hasc hwrite
        exact ⟨rfl, hne, hpath, merged, htracks.setFile _ _, hholds, hindex,
          merged_ne_nil hne hreadable (by rw [hassoc, hlayers]), hassoc⟩
  | written infos newSstable =>
    obtain ⟨rfl, hmerges, hpath, merged, htracks, hholds, hindex, hne, hassoc⟩ := h
    obtain ⟨m, hbuild, hlists, hmpath, -, hcreated⟩ :=
      lists_buildMetadata (t := newSstable) (by rwa [hpath]) hindex hne 1 nowMs
    rw [next]
    simp only [Tables.buildMetadata, hbuild]
    exact ⟨rfl, merged, htracks, hmerges, hlists, hassoc, hmpath.trans hpath, hcreated⟩
  | described infos metadata =>
    obtain ⟨rfl, merged, htracks, hnew⟩ := h
    exact ⟨rfl, metadata, merged, htracks.addEntry metadata, hnew.merges, hnew.lists, hnew.answers,
      hnew.path, hnew.created⟩
  | added infos =>
    obtain ⟨rfl, metadata, merged, htracks, hnew⟩ := h
    exact ⟨rfl, metadata, merged, [], rfl, htracks.save, hnew.merges, hnew.lists, hnew.answers,
      hnew.path, hnew.created⟩
  | removing infos rest =>
    obtain ⟨rfl, metadata, merged, done, hsplit, htracks, hnew⟩ := h
    cases rest with
    | nil =>
      rw [List.append_nil] at hsplit
      subst hsplit
      exact ⟨metadata, merged, [], rfl, htracks, hnew⟩
    | cons info rest =>
      exact ⟨rfl, metadata, merged, done ++ [info],
        hsplit.trans (List.append_assoc done [info] rest).symm, htracks.removeEntry info, hnew.merges,
        hnew.lists, hnew.answers, hnew.path, hnew.created⟩
  | removed infos rest =>
    obtain ⟨rfl, metadata, merged, done, hsplit, htracks, hnew⟩ := h
    exact ⟨rfl, metadata, merged, done, hsplit, htracks.save, hnew.merges, hnew.lists, hnew.answers,
      hnew.path, hnew.created⟩
  | unlinking rest =>
    obtain ⟨metadata, merged, done, hsplit, htracks, hnew⟩ := h
    cases rest with
    | nil =>
      rw [List.append_nil] at hsplit
      subst hsplit
      exact .inr ⟨metadata, merged, htracks, hnew⟩
    | cons info rest =>
      have hinfo : info ∈ level0 := by
        rw [hsplit]
        exact List.mem_append_right _ List.mem_cons_self
      refine ⟨metadata, merged, done ++ [info],
        hsplit.trans (List.append_assoc done [info] rest).symm, ?_, hnew.merges,
        hnew.lists.congr (Function.update_of_ne ?_ ..), hnew.answers, hnew.path,
        hnew.created⟩
      · have := htracks.setFile info.path none
        refine ⟨this.atLevel0, this.atLevel1, this.deeper, this.order, fun p hp => this.files p ?_⟩
        simp only [List.map_append, List.map_cons, List.map_nil, List.mem_append, List.mem_cons,
          List.not_mem_nil, or_false, not_or] at hp ⊢
        exact ⟨hp.1.2, hp.1.1, hp.2⟩
      · intro e
        -- the new table is none of the merged ones
        exact hfresh (hnew.path ▸ e ▸ htracks.listed hinfo)
  | returned => exact h
  | raised e => exact h

end PcInv

end CompactionManager

end Logvine
