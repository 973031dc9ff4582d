import Logvine.Storage.CompactionStops

/-!
# The tables without the compaction under way

While a compaction runs, the tables are compared with what they would be if it had not
begun (`PcInv`). Here flushes take their own steps in between, and one compaction follows
another.

- `Alike`: a step of a flush does the same to both;
- `PcInv.alike`: the two stay comparable;
- `Window`: the removal of the merged entries has begun and is not done;
- `settled_of_pcInv`: outside of it both answer alike, so that the comparison may begin
  anew.

The two share no file but that of the manifest, where a flush adds to level 0 and a
compaction takes from it (`engine.py`, 309; `compaction.py`, 138–139). That their steps
commute is what the module comes to.
-/

namespace Logvine

open Layer SSTableManager

namespace CompactionManager

/-! ## Steps of a flush -/

/-- What a step of a flush makes of the tables, and of the tables without the compaction. -/
inductive Alike (storagePath : Path) (without t : Tables) : Tables → Tables → Prop where
  | same : Alike storagePath without t without t
  | file (nameMs : Nat) (content : Option Bytes) (hfree : ¬without.Listed (sstablePath storagePath nameMs)) :
      Alike storagePath without t (without.setFile (sstablePath storagePath nameMs) content)
        (t.setFile (sstablePath storagePath nameMs) content)
  | listed (m : SSTableMeta) (nameMs : Nat) (hname : m.path = sstablePath storagePath nameMs)
      (hfree : ¬without.Listed m.path)
      (hnew : ∀ m' ∈ without.manifest.getLevelSstables 0, m'.stamp ≤ m.stamp) :
      Alike storagePath without t { without with manifest := without.manifest.addEntry 0 m }
        { t with manifest := t.manifest.addEntry 0 m }
  | saved : Alike storagePath without t without.save t.save

section Alike

variable {newPath : Path} {nowMs : Nat} {without t without' t' : Tables} {level0 added removed : List SSTableMeta}
  {touched : List Path} {pc : CompactPc}

/-- Only the levels and the files matter, on the other side too. -/
theorem Tracks.congrWithout (h : Tracks without t level0 added removed touched)
    (hlevels : without'.manifest.levels = without.manifest.levels) (hfiles : without'.files = without.files) :
    Tracks without' t level0 added removed touched := by
  have hat : ∀ level, without'.manifest.getLevelSstables level = without.manifest.getLevelSstables level :=
    fun level => by rw [Manifest.getLevelSstables, Manifest.getLevelSstables, hlevels]
  have horder : levelOrder without'.manifest 0 = levelOrder without.manifest 0 := by rw [levelOrder, hat, levelOrder]
  refine ⟨?_, ?_, ?_, ?_, ?_⟩
  · rw [hat]
    exact h.atLevel0
  · rw [hat]
    exact h.atLevel1
  · rw [h.deeper, deeperOrder, deeperOrder, Manifest.iterLevels, Manifest.iterLevels, hlevels]
  · rw [horder]
    exact h.order
  · rw [hfiles]
    exact h.files

/-- The same file on both sides. -/
theorem Tracks.setBoth (h : Tracks without t level0 added removed touched) (path : Path) (content : Option Bytes) :
    Tracks (without.setFile path content) (t.setFile path content) level0 added removed touched := by
  refine ⟨h.atLevel0, h.atLevel1, h.deeper, h.order, fun other hother => ?_⟩
  show Function.update t.files path content other = Function.update without.files path content other
  rw [Function.update_apply, Function.update_apply, h.files other hother]

/-- Where a run stands depends on what it tracks and on the files it names. -/
theorem PcInv.moved (h : PcInv newPath nowMs without t level0 pc)
    (htracks : ∀ {added removed : List SSTableMeta} {touched : List Path},
      Tracks without t level0 added removed touched → (∀ i ∈ removed, i ∈ level0) →
      (∀ path ∈ touched, path ∈ level0.map SSTableMeta.path ∨ path = newPath) →
      Tracks without' t' level0 added removed touched)
    (hfile : t'.files newPath = t.files newPath) (hfiles : ∀ i ∈ level0, without'.files i.path = without.files i.path) :
    PcInv newPath nowMs without' t' level0 pc := by
  have hnone : ∀ i ∈ ([] : List SSTableMeta), i ∈ level0 := fun _ hi => absurd hi List.not_mem_nil
  have hnotouch : ∀ path ∈ ([] : List Path), path ∈ level0.map SSTableMeta.path ∨ path = newPath :=
    fun _ hpath => absurd hpath List.not_mem_nil
  have hown : ∀ path ∈ [newPath], path ∈ level0.map SSTableMeta.path ∨ path = newPath :=
    fun _ hpath => .inr (List.mem_singleton.mp hpath)
  have hnew : ∀ {metadata : SSTableMeta} {merged : List (Bytes × Bytes)},
      NewTable newPath nowMs without t level0 metadata merged →
      NewTable newPath nowMs without' t' level0 metadata merged := by
    intro metadata merged hnew
    refine ⟨hnew.merges, hnew.lists.congr ?_, ?_, hnew.path, hnew.created⟩
    · rw [hnew.path, hfile]
    · rw [hnew.answers]
      exact (stack_congr hfiles).symm
  cases pc with
  | idle =>
    obtain ⟨rfl, htracked⟩ := h
    exact ⟨rfl, htracks htracked hnone hnotouch⟩
  | merging infos => exact ⟨h.1, h.2.1, htracks h.2.2 hnone hnotouch⟩
  | written infos newSstable =>
    obtain ⟨heq, hne, hpath, merged, htracked, hholds, hindex, hmerged, hassoc⟩ := h
    refine ⟨heq, hne, hpath, merged, htracks htracked hnone hown, ?_, hindex, hmerged, ?_⟩
    · exact ⟨hfile.trans hholds.file, hholds.ascending, hholds.fits⟩
    · rw [hassoc]
      exact (stack_congr hfiles).symm
  | described infos metadata =>
    obtain ⟨heq, merged, htracked, htable⟩ := h
    exact ⟨heq, merged, htracks htracked hnone hown, hnew htable⟩
  | added infos =>
    obtain ⟨heq, metadata, merged, htracked, htable⟩ := h
    exact ⟨heq, metadata, merged, htracks htracked hnone hown, hnew htable⟩
  | removing infos rest | removed infos rest =>
    obtain ⟨heq, metadata, merged, done, hsplit, htracked, htable⟩ := h
    exact ⟨heq, metadata, merged, done, hsplit,
      htracks htracked (fun i hi => hsplit ▸ List.mem_append_left _ hi) hown, hnew htable⟩
  | unlinking rest =>
    obtain ⟨metadata, merged, done, hsplit, htracked, htable⟩ := h
    refine ⟨metadata, merged, done, hsplit, htracks htracked (fun _ hi => hi) fun path hpath => ?_, hnew htable⟩
    refine (List.mem_append.mp hpath).imp (fun hpath => ?_) List.mem_singleton.mp
    rw [hsplit, List.map_append]
    exact List.mem_append_left _ hpath
  | returned =>
    rcases h with ⟨rfl, htracked⟩ | ⟨metadata, merged, htracked, htable⟩
    · exact .inl ⟨rfl, htracks htracked hnone hnotouch⟩
    · exact .inr ⟨metadata, merged, htracks htracked (fun _ hi => hi) fun path hpath =>
        (List.mem_append.mp hpath).imp_right List.mem_singleton.mp, hnew htable⟩
  | raised e => exact htracks h hnone hown

/-- Files that a run neither merges nor writes are as they would be without it. -/
theorem PcInv.files_eq (h : PcInv newPath nowMs without t level0 pc) {path : Path}
    (hpath : path ∉ level0.map SSTableMeta.path) (hne : path ≠ newPath) : t.files path = without.files path := by
  have hown : path ∉ [newPath] := fun hmem => hne (List.mem_singleton.mp hmem)
  cases pc with
  | idle => exact h.2.files path List.not_mem_nil
  | merging infos => exact h.2.2.files path List.not_mem_nil
  | written infos newSstable =>
    obtain ⟨_, _, _, _, htracked, _⟩ := h
    exact htracked.files path hown
  | described infos metadata =>
    obtain ⟨_, _, htracked, _⟩ := h
    exact htracked.files path hown
  | added infos =>
    obtain ⟨_, _, _, htracked, _⟩ := h
    exact htracked.files path hown
  | removing infos rest | removed infos rest =>
    obtain ⟨_, _, _, _, _, htracked, _⟩ := h
    exact htracked.files path hown
  | unlinking rest =>
    obtain ⟨_, _, done, hsplit, htracked, _⟩ := h
    refine htracked.files path fun hmem => ?_
    rcases List.mem_append.mp hmem with hmem | hmem
    · rw [hsplit, List.map_append] at hpath
      exact hpath (List.mem_append_left _ hmem)
    · exact hown hmem
  | returned =>
    rcases h with ⟨-, htracked⟩ | ⟨_, _, htracked, _⟩
    · exact htracked.files path List.not_mem_nil
    · refine htracked.files path fun hmem => ?_
      rcases List.mem_append.mp hmem with hmem | hmem
      · exact hpath hmem
      · exact hown hmem
  | raised e => exact h.files path hown

variable {storagePath : Path} {timeNs : Nat}

/-- **A step of a flush** keeps a run on track. -/
theorem PcInv.alike (h : PcInv (compactedPath storagePath timeNs) nowMs without t level0 pc)
    (hstep : Alike storagePath without t without' t') :
    PcInv (compactedPath storagePath timeNs) nowMs without' t' level0 pc := by
  have hlisted := pcInv_listed h
  cases hstep with
  | same => exact h
  | file nameMs content hfree =>
    have hother := Tables.sstablePath_ne_compactedPath storagePath nameMs timeNs
    refine h.moved (fun htracked _ _ => htracked.setBoth _ content) (Function.update_of_ne hother.symm ..) fun i hi => ?_
    have hne : i.path ≠ sstablePath storagePath nameMs := fun heq => hfree (heq ▸ hlisted i hi)
    exact Function.update_of_ne hne ..
  | listed m nameMs hname hfree hnew =>
    have hother : m.path ≠ compactedPath storagePath timeNs := by
      rw [hname]
      exact Tables.sstablePath_ne_compactedPath storagePath nameMs timeNs
    have hsame : t.files m.path = without.files m.path := by
      refine h.files_eq (fun hmem => ?_) hother
      obtain ⟨i, hi, heq⟩ := List.mem_map.mp hmem
      exact hfree (heq ▸ hlisted i hi)
    refine h.moved (fun {added removed touched} htracked hremoved htouched => ?_) rfl fun _ _ => rfl
    -- its file is there already, on both sides
    have hboth : Tracks ((without.setFile m.path (without.files m.path)).addSstable 0 m)
        ((t.setFile m.path (without.files m.path)).addSstable 0 m) level0 added removed touched :=
      htracked.flush hother hfree hremoved htouched hnew
    have hleft : Tracks ((without.setFile m.path (without.files m.path)).addSstable 0 m)
        { t with manifest := t.manifest.addEntry 0 m } level0 added removed touched := by
      refine hboth.congr rfl ?_
      show t.files = Function.update t.files m.path (without.files m.path)
      rw [← hsame, Function.update_eq_self]
    refine hleft.congrWithout rfl ?_
    exact (Function.update_eq_self ..).symm
  | saved =>
    refine h.moved (fun {added removed touched} htracked _ _ => ?_) rfl fun _ _ => rfl
    have hleft : Tracks without t.save level0 added removed touched := htracked.congr rfl rfl
    exact hleft.congrWithout rfl rfl

/-- What is listed then was listed before, or is the table of the flush. -/
theorem Alike.listed_or (hstep : Alike storagePath without t without' t') {m : SSTableMeta}
    (hm : m ∈ readOrder without'.manifest) :
    m ∈ readOrder without.manifest ∨ ∃ nameMs, m.path = sstablePath storagePath nameMs := by
  cases hstep with
  | same => exact .inl hm
  | file nameMs content hfree => exact .inl hm
  | listed m' nameMs hname hfree hnew =>
    rcases mem_readOrder_addEntry.mp hm with rfl | hm
    · exact .inr ⟨nameMs, hname⟩
    · exact .inl hm
  | saved => exact .inl hm

theorem Alike.not_listed (hstep : Alike storagePath without t without' t')
    (hfree : ¬without.Listed (compactedPath storagePath timeNs)) :
    ¬without'.Listed (compactedPath storagePath timeNs) := by
  rintro ⟨m, hm, heq⟩
  rcases hstep.listed_or hm with hm | ⟨nameMs, hname⟩
  · exact hfree ⟨m, hm, heq⟩
  · exact Tables.sstablePath_ne_compactedPath _ _ _ (hname.symm.trans heq)

theorem Alike.distinct (hstep : Alike storagePath without t without' t')
    (hdistinct : ((readOrder without.manifest).map SSTableMeta.path).Nodup) :
    ((readOrder without'.manifest).map SSTableMeta.path).Nodup := by
  cases hstep with
  | same => exact hdistinct
  | file nameMs content hfree => exact hdistinct
  | listed m nameMs hname hfree hnew =>
    have hperm := (readOrder_addEntry_perm without.manifest m).map SSTableMeta.path
    rw [List.map_cons] at hperm
    refine hperm.nodup_iff.mpr (List.nodup_cons.mpr ⟨fun hmem => ?_, hdistinct⟩)
    obtain ⟨m', hm', heq⟩ := List.mem_map.mp hmem
    exact hfree ⟨m', hm', heq⟩
  | saved => exact hdistinct

theorem Alike.level1 (hstep : Alike storagePath without t without' t') :
    without'.manifest.getLevelSstables 1 = without.manifest.getLevelSstables 1 := by
  cases hstep with
  | same => rfl
  | file nameMs content hfree => rfl
  | listed m nameMs hname hfree hnew => exact (Manifest.getLevelSstables_addEntry ..).trans (if_neg (by decide))
  | saved => rfl

end Alike

/-! ## When the two answer alike -/

/-- Some of the merged entries are removed, and some are not. -/
def Window : CompactPc → Prop
  | .removing level0 rest | .removed level0 rest => rest ≠ [] ∧ rest ≠ level0
  | _ => False

instance : (pc : CompactPc) → Decidable (Window pc)
  | .removing level0 rest => inferInstanceAs (Decidable (rest ≠ [] ∧ rest ≠ level0))
  | .removed level0 rest => inferInstanceAs (Decidable (rest ≠ [] ∧ rest ≠ level0))
  | .idle | .merging _ | .written _ _ | .described _ _ | .added _ | .unlinking _ | .returned | .raised _ =>
    .isFalse id

/-- Both answer alike, and what is listed is readable, under distinct paths. -/
structure Settled (without t : Tables) : Prop where
  readable : t.Readable
  distinct : ((readOrder t.manifest).map SSTableMeta.path).Nodup
  layer : t.layer = without.layer
  level0 : ∀ m ∈ t.manifest.getLevelSstables 0, m ∈ without.manifest.getLevelSstables 0

section Settled

variable {newPath : Path} {nowMs : Nat} {without t : Tables} {level0 removed : List SSTableMeta}
  {metadata : SSTableMeta} {merged : List (Bytes × Bytes)} {touched : List Path} {pc : CompactPc}

theorem Tracks.level0_subset {added : List SSTableMeta} (h : Tracks without t level0 added removed touched) :
    ∀ m ∈ t.manifest.getLevelSstables 0, m ∈ without.manifest.getLevelSstables 0 := by
  rw [h.atLevel0]
  exact fun m hm => (List.mem_filter.mp hm).1

/-- The path of the new table is another one than those of the tables still listed. -/
theorem distinct_of_tracks (h : Tracks without t level0 [metadata] removed touched) (hpath : metadata.path = newPath)
    (hfresh : ¬without.Listed newPath) (hdistinct : ((readOrder without.manifest).map SSTableMeta.path).Nodup) :
    ((readOrder t.manifest).map SSTableMeta.path).Nodup := by
  have horder : readOrder t.manifest = ((levelOrder without.manifest 0).filter fun m =>
      decide (m.path ∉ removed.map SSTableMeta.path)) ++ ((ahead without metadata.stamp ++
        metadata :: behind without metadata.stamp) ++ deeperOrder without.manifest) := by
    rw [readOrder_eq, levelOrder_zero h, levelOrder_one h, h.deeper]
  have hcut : levelOrder without.manifest 1 = ahead without metadata.stamp ++ behind without metadata.stamp :=
    newestFirst_split _ _ _
  have hperm : (readOrder t.manifest).Perm
      (metadata :: (((levelOrder without.manifest 0).filter fun m =>
        decide (m.path ∉ removed.map SSTableMeta.path)) ++
          (levelOrder without.manifest 1 ++ deeperOrder without.manifest))) := by
    rw [horder, hcut]
    refine List.Perm.trans ((List.Perm.append_right _ List.perm_middle).append_left _) ?_
    exact List.perm_middle
  have hsub : (((levelOrder without.manifest 0).filter fun m =>
      decide (m.path ∉ removed.map SSTableMeta.path)) ++
        (levelOrder without.manifest 1 ++ deeperOrder without.manifest)).Sublist (readOrder without.manifest) := by
    rw [readOrder_eq]
    exact List.filter_sublist.append_right _
  rw [(hperm.map _).nodup_iff, List.map_cons, List.nodup_cons]
  refine ⟨fun hmem => ?_, (hsub.map _).nodup hdistinct⟩
  obtain ⟨m, hm, heq⟩ := List.mem_map.mp hmem
  exact hfresh ⟨m, hsub.subset hm, heq.trans hpath⟩

/-- Before the new table is recorded. -/
theorem settled_unrecorded (h : Tracks without t level0 [] [] touched) (hr : without.Readable)
    (hunlisted : ∀ path ∈ touched, ¬without.Listed path)
    (hdistinct : ((readOrder without.manifest).map SSTableMeta.path).Nodup) : Settled without t := by
  have horder : readOrder t.manifest = readOrder without.manifest := readOrder_of_tracks_nil h
  refine ⟨fun m hm => ?_, by rwa [horder], layer_of_tracks_nil h hunlisted, h.level0_subset⟩
  rw [horder] at hm
  exact (hr m hm).congr (h.files m.path fun hp => hunlisted _ hp ⟨m, hm, rfl⟩)

/-- No table of level 1 is consulted before the newest. -/
theorem ahead_eq_nil {stamp : Nat ×ₗ String}
    (hnewest : ∀ m ∈ without.manifest.getLevelSstables 1, m.stamp ≤ stamp) : ahead without stamp = [] := by
  refine List.filter_eq_nil_iff.mpr fun m hm => ?_
  simpa using hnewest m ((mem_newestFirst _).mp hm)

/-- While the new table is recorded beside all merged ones. -/
theorem settled_recorded (h : Tracks without t level0 [metadata] [] [newPath])
    (hnew : NewTable newPath nowMs without t level0 metadata merged) (hr : without.Readable)
    (hfresh : ¬without.Listed newPath) (hdistinct : ((readOrder without.manifest).map SSTableMeta.path).Nodup)
    (hnewest : ∀ m ∈ without.manifest.getLevelSstables 1, m.stamp ≤ metadata.stamp) :
    Settled without t := by
  have hkept : ∀ m ∈ readOrder t.manifest, m ∈ readOrder without.manifest → m.path ∉ [newPath] :=
    fun m _ hm hmem => hfresh ⟨m, hm, List.mem_singleton.mp hmem⟩
  refine ⟨readable_of_tracks h hnew hr hkept, distinct_of_tracks h hnew.path hfresh hdistinct, ?_, h.level0_subset⟩
  have hall : ((levelOrder without.manifest 0).filter fun m =>
      decide (m.path ∉ ([] : List SSTableMeta).map SSTableMeta.path)) = levelOrder without.manifest 0 :=
    List.filter_eq_self.mpr fun m _ => decide_eq_true List.not_mem_nil
  obtain ⟨newer, horder, -⟩ := h.order
  have hnone : stack without.files [] = Layer.empty := rfl
  -- the new table answers as the merged ones that are consulted before it
  rw [layer_of_tracks h hnew hkept, layer_cut without metadata.stamp, hall, ahead_eq_nil hnewest, horder, stack_append,
    hnone, empty_above, empty_above, above_assoc, above_assoc, above_above_self]

/-- Once all merged ones are removed, and their files perhaps unlinked. -/
theorem settled_removed (h : Tracks without t level0 [metadata] level0 touched)
    (htouched : touched ⊆ level0.map SSTableMeta.path ++ [newPath])
    (hnew : NewTable newPath nowMs without t level0 metadata merged) (hr : without.Readable)
    (hfresh : ¬without.Listed newPath) (hdistinct : ((readOrder without.manifest).map SSTableMeta.path).Nodup)
    (hnewest : ∀ m ∈ without.manifest.getLevelSstables 1, m.stamp ≤ metadata.stamp) :
    Settled without t := by
  have hkept : ∀ m ∈ readOrder t.manifest, m ∈ readOrder without.manifest → m.path ∉ touched :=
    fun m hm hw hmem => kept_of_merged h hnew.path hfresh hdistinct m hm hw (htouched hmem)
  exact ⟨readable_of_tracks h hnew hr hkept, distinct_of_tracks h hnew.path hfresh hdistinct,
    layer_compacted h hnew hkept hnewest, h.level0_subset⟩

/-- **Outside of the removal** the tables answer as without the run. -/
theorem settled_of_pcInv (h : PcInv newPath nowMs without t level0 pc) (hr : without.Readable)
    (hfresh : ¬without.Listed newPath) (hdistinct : ((readOrder without.manifest).map SSTableMeta.path).Nodup)
    (hnewest : level0 ≠ [] → Stamped pc →
      ∀ m ∈ without.manifest.getLevelSstables 1, m.createdAtMs.getD 0 < nowMs) (hpc : ¬Window pc) :
    Settled without t := by
  have hown : ∀ path ∈ [newPath], ¬without.Listed path := fun path hpath => by rwa [List.mem_singleton.mp hpath]
  have hnone : ∀ path ∈ ([] : List Path), ¬without.Listed path := fun _ hpath => absurd hpath List.not_mem_nil
  have hstamp : ∀ {metadata : SSTableMeta} {merged : List (Bytes × Bytes)}, Stamped pc →
      NewTable newPath nowMs without t level0 metadata merged →
      ∀ m ∈ without.manifest.getLevelSstables 1, m.stamp ≤ metadata.stamp := by
    intro metadata merged hstamped hnew m hm
    refine stamp_le_of_lt ?_
    rw [hnew.created]
    exact hnewest hnew.merges hstamped m hm
  cases pc with
  | idle => exact settled_unrecorded h.2 hr hnone hdistinct
  | merging infos => exact settled_unrecorded h.2.2 hr hnone hdistinct
  | written infos newSstable =>
    obtain ⟨_, _, _, _, htracked, _⟩ := h
    exact settled_unrecorded htracked hr hown hdistinct
  | described infos metadata =>
    obtain ⟨_, _, htracked, _⟩ := h
    exact settled_unrecorded htracked hr hown hdistinct
  | raised e => exact settled_unrecorded h hr hown hdistinct
  | added infos =>
    obtain ⟨_, _, _, htracked, htable⟩ := h
    exact settled_recorded htracked htable hr hfresh hdistinct (hstamp trivial htable)
  | removing infos rest | removed infos rest =>
    obtain ⟨rfl, metadata, merged, done, hsplit, htracked, htable⟩ := h
    by_cases hrest : rest = []
    · rw [hrest, List.append_nil] at hsplit
      rw [← hsplit] at htracked
      exact settled_removed htracked (List.subset_append_right _ _) htable hr hfresh hdistinct (hstamp trivial htable)
    · have hall : rest = infos := by
        by_contra hne
        exact hpc ⟨hrest, hne⟩
      have hdone : done = [] := by
        rw [hall] at hsplit
        exact List.self_eq_append_left.mp hsplit
      rw [hdone] at htracked
      exact settled_recorded htracked htable hr hfresh hdistinct (hstamp trivial htable)
  | unlinking rest =>
    obtain ⟨metadata, merged, done, hsplit, htracked, htable⟩ := h
    refine settled_removed htracked ?_ htable hr hfresh hdistinct (hstamp trivial htable)
    rw [hsplit, List.map_append, List.append_assoc]
    exact List.append_subset.mpr ⟨List.subset_append_left _ _,
      List.subset_append_of_subset_right _ (List.subset_append_right _ _)⟩
  | returned =>
    rcases h with ⟨-, htracked⟩ | ⟨metadata, merged, htracked, htable⟩
    · exact settled_unrecorded htracked hr hnone hdistinct
    · exact settled_removed htracked (List.Subset.refl _) htable hr hfresh hdistinct (hstamp trivial htable)

/-- What is listed during a run was listed without it, or is its table. -/
theorem mem_of_tracks {added : List SSTableMeta} (h : Tracks without t level0 added removed touched) {m : SSTableMeta}
    (hm : m ∈ readOrder t.manifest) : m ∈ readOrder without.manifest ∨ m ∈ added := by
  rw [readOrder_eq, h.deeper] at hm
  rw [readOrder_eq]
  rcases List.mem_append.mp hm with hm | hm
  · exact .inl (List.mem_append_left _ ((mem_newestFirst _).mpr (h.level0_subset m ((mem_newestFirst _).mp hm))))
  · rcases List.mem_append.mp hm with hm | hm
    · have hmem := (mem_newestFirst _).mp hm
      rw [h.atLevel1] at hmem
      refine (List.mem_append.mp hmem).imp_left fun hmem => ?_
      exact List.mem_append_right _ (List.mem_append_left _ ((mem_newestFirst _).mpr hmem))
    · exact .inl (List.mem_append_right _ (List.mem_append_right _ hm))

theorem listed_of_pcInv (h : PcInv newPath nowMs without t level0 pc) {m : SSTableMeta}
    (hm : m ∈ readOrder t.manifest) : m ∈ readOrder without.manifest ∨
      level0 ≠ [] ∧ Stamped pc ∧ m.path = newPath ∧ m.createdAtMs = some nowMs := by
  have hbefore : ∀ {level0 : List SSTableMeta} {touched : List Path}, Tracks without t level0 [] [] touched →
      m ∈ readOrder without.manifest :=
    fun htracked => (mem_of_tracks htracked hm).resolve_right List.not_mem_nil
  have hafter : ∀ {metadata : SSTableMeta} {merged : List (Bytes × Bytes)} {removed : List SSTableMeta}
      {touched : List Path}, Stamped pc → Tracks without t level0 [metadata] removed touched →
      NewTable newPath nowMs without t level0 metadata merged → m ∈ readOrder without.manifest ∨
        level0 ≠ [] ∧ Stamped pc ∧ m.path = newPath ∧ m.createdAtMs = some nowMs := by
    intro metadata merged removed touched hstamped htracked hnew
    refine (mem_of_tracks htracked hm).imp_right fun hmem => ?_
    rw [List.mem_singleton.mp hmem]
    exact ⟨hnew.merges, hstamped, hnew.path, hnew.created⟩
  cases pc with
  | idle => exact .inl (hbefore h.2)
  | merging infos => exact .inl (hbefore h.2.2)
  | written infos newSstable =>
    obtain ⟨_, _, _, _, htracked, _⟩ := h
    exact .inl (hbefore htracked)
  | described infos metadata =>
    obtain ⟨_, _, htracked, _⟩ := h
    exact .inl (hbefore htracked)
  | raised e => exact .inl (hbefore h)
  | added infos =>
    obtain ⟨_, _, _, htracked, hnew⟩ := h
    exact hafter trivial htracked hnew
  | removing infos rest | removed infos rest =>
    obtain ⟨_, _, _, _, _, htracked, hnew⟩ := h
    exact hafter trivial htracked hnew
  | unlinking rest =>
    obtain ⟨_, _, _, _, htracked, hnew⟩ := h
    exact hafter trivial htracked hnew
  | returned =>
    rcases h with ⟨-, htracked⟩ | ⟨_, _, htracked, hnew⟩
    · exact .inl (hbefore htracked)
    · exact hafter trivial htracked hnew

end Settled

end CompactionManager

end Logvine
