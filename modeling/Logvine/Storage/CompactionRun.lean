import Logvine.Storage.Compaction

/-!
# A compaction among flushes

What the tables answer during and after a run of `compact`, compared with what
they would answer without it.

- `layer_of_tracks`: the answers at any point after the new table was recorded;
- `layer_compacted`: once all merged entries are removed, the answers are those
  without the run, if the new table is the newest of level 1;
- `compaction_preserves`: so a run that returns, with any number of flushes adding
  tables between its steps, changes no answer, drops no flushed table and leaves
  no merged one;
- `layer_compact`: in particular a whole `compact` changes no answer.

`compact` looks at level 0 once, at its beginning (`compaction.py`, 117–119), and a flush
does not wait for it (`engine.py`, 309). So a table that is flushed during the run is
neither merged nor removed, and stays above the new one because level 0 is read before level
1; the steps of the run only ever touch what it found at its beginning.
-/

namespace Logvine

open Layer SSTableManager

namespace CompactionManager

/-- The tables of level 1 that are consulted before one of that stamp. -/
def ahead (t : Tables) (stamp : Nat ×ₗ String) : List SSTableMeta :=
  (levelOrder t.manifest 1).filter fun m => decide (stamp < m.stamp)

/-- The tables of level 1 that are consulted after it. -/
def behind (t : Tables) (stamp : Nat ×ₗ String) : List SSTableMeta :=
  (levelOrder t.manifest 1).filter fun m => decide (m.stamp ≤ stamp)

/-- The stack of some tables, the first on top. -/
def stack (files : Files) (infos : List SSTableMeta) : Layer Bytes Bytes :=
  resolve (infos.map (tableLayer files))

theorem stack_append (files : Files) (infos infos' : List SSTableMeta) :
    stack files (infos ++ infos') = above (stack files infos) (stack files infos') := by
  rw [stack, List.map_append, resolve_append]
  rfl

theorem stack_cons (files : Files) (info : SSTableMeta) (infos : List SSTableMeta) :
    stack files (info :: infos) = above (tableLayer files info) (stack files infos) := by
  rw [stack, List.map_cons, resolve_cons]
  rfl

theorem stack_congr {files files' : Files} {infos : List SSTableMeta}
    (h : ∀ m ∈ infos, files' m.path = files m.path) : stack files' infos = stack files infos :=
  congrArg resolve (List.map_congr_left fun m hm => tableLayer_congr (h m hm))

/-- The answers of some tables, cut where a table of that stamp would stand. -/
theorem layer_cut (t : Tables) (stamp : Nat ×ₗ String) :
    t.layer = above (stack t.files (levelOrder t.manifest 0))
      (above (stack t.files (ahead t stamp)) (above (stack t.files (behind t stamp))
        (stack t.files (deeperOrder t.manifest)))) := by
  have hcut : levelOrder t.manifest 1 = ahead t stamp ++ behind t stamp :=
    newestFirst_split _ _ _
  rw [Tables.layer, tablesLayer_eq, ← above_assoc (stack t.files (ahead t stamp)), ← stack_append,
    ← hcut]
  rfl

section Tracks

variable {without t : Tables} {level0 removed : List SSTableMeta} {metadata : SSTableMeta}
  {touched : List Path}

theorem levelOrder_zero {added : List SSTableMeta} (h : Tracks without t level0 added removed touched) :
    levelOrder t.manifest 0 = (levelOrder without.manifest 0).filter fun m =>
      decide (m.path ∉ removed.map SSTableMeta.path) := by
  rw [levelOrder, h.atLevel0, newestFirst_filter, ← levelOrder]

theorem levelOrder_one (h : Tracks without t level0 [metadata] removed touched) :
    levelOrder t.manifest 1 = ahead without metadata.stamp ++ metadata :: behind without metadata.stamp := by
  rw [levelOrder, h.atLevel1, newestFirst_concat]
  rfl

theorem readOrder_of_tracks_nil (h : Tracks without t level0 [] [] touched) :
    readOrder t.manifest = readOrder without.manifest := by
  have h0 : levelOrder t.manifest 0 = levelOrder without.manifest 0 := by
    rw [levelOrder_zero h]
    simp
  have h1 : levelOrder t.manifest 1 = levelOrder without.manifest 1 := by
    rw [levelOrder, h.atLevel1, List.append_nil, ← levelOrder]
  rw [readOrder_eq, readOrder_eq, h0, h1, h.deeper]

/-- Before the new table is recorded nothing can be seen of the run. -/
theorem layer_of_tracks_nil (h : Tracks without t level0 [] [] touched)
    (hunlisted : ∀ path ∈ touched, ¬without.Listed path) : t.layer = without.layer := by
  rw [Tables.layer, tablesLayer, readOrder_of_tracks_nil h]
  exact stack_congr fun m hm => h.files m.path fun hp => hunlisted _ hp ⟨m, hm, rfl⟩

variable {newPath : Path} {nowMs : Nat} {merged : List (Bytes × Bytes)}

/-- **The answers during a run**, as long as no file still listed was unlinked. -/
theorem layer_of_tracks (h : Tracks without t level0 [metadata] removed touched)
    (hnew : NewTable newPath nowMs without t level0 metadata merged)
    (hkept : ∀ m ∈ readOrder t.manifest, m ∈ readOrder without.manifest → m.path ∉ touched) :
    t.layer = above (stack without.files ((levelOrder without.manifest 0).filter fun m =>
        decide (m.path ∉ removed.map SSTableMeta.path)))
      (above (stack without.files (ahead without metadata.stamp))
        (above (stack without.files level0) (above (stack without.files (behind without metadata.stamp))
          (stack without.files (deeperOrder without.manifest))))) := by
  have horder : readOrder t.manifest = ((levelOrder without.manifest 0).filter fun m =>
      decide (m.path ∉ removed.map SSTableMeta.path)) ++ ((ahead without metadata.stamp ++
        metadata :: behind without metadata.stamp) ++ deeperOrder without.manifest) := by
    rw [readOrder_eq, levelOrder_zero h, levelOrder_one h, h.deeper]
  have hstill : ∀ m, (m ∈ (levelOrder without.manifest 0).filter fun m =>
      decide (m.path ∉ removed.map SSTableMeta.path)) ∨ m ∈ ahead without metadata.stamp ∨
      m ∈ behind without metadata.stamp ∨ m ∈ deeperOrder without.manifest → m ∈ readOrder t.manifest := by
    intro m hm
    rw [horder]
    simp only [List.mem_append, List.mem_cons]
    tauto
  -- the files of the entries still listed are those without the run
  have hcongr : ∀ infos : List SSTableMeta, (∀ m ∈ infos, m ∈ readOrder t.manifest) →
      (∀ m ∈ infos, m ∈ readOrder without.manifest) → stack t.files infos = stack without.files infos :=
    fun infos ht hw => stack_congr fun m hm => h.files m.path (hkept m (ht m hm) (hw m hm))
  have hmetadata : tableLayer t.files metadata = stack without.files level0 :=
    (tableLayer_of_lists hnew.lists).trans hnew.answers
  show stack t.files (readOrder t.manifest) = _
  rw [horder, stack_append, stack_append, stack_append, stack_cons, hmetadata,
    hcongr ((levelOrder without.manifest 0).filter _), hcongr (ahead without metadata.stamp),
    hcongr (behind without metadata.stamp), hcongr (deeperOrder without.manifest), above_assoc, above_assoc]
  all_goals intro m hm
  · exact hstill m (.inr (.inr (.inr hm)))
  · rw [readOrder_eq]
    exact List.mem_append_right _ (List.mem_append_right _ hm)
  · exact hstill m (.inr (.inr (.inl hm)))
  · exact mem_readOrder_of_levelOrder (List.mem_filter.mp hm).1
  · exact hstill m (.inr (.inl hm))
  · exact mem_readOrder_of_levelOrder (List.mem_filter.mp hm).1
  · exact hstill m (.inl hm)
  · exact mem_readOrder_of_levelOrder (List.mem_filter.mp hm).1

/-- Every table that is then listed can be read. -/
theorem readable_of_tracks (h : Tracks without t level0 [metadata] removed touched)
    (hnew : NewTable newPath nowMs without t level0 metadata merged) (hr : without.Readable)
    (hkept : ∀ m ∈ readOrder t.manifest, m ∈ readOrder without.manifest → m.path ∉ touched) :
    t.Readable := by
  intro m hm
  by_cases hw : m ∈ readOrder without.manifest
  · exact (hr m hw).congr (h.files m.path (hkept m hm hw))
  · -- the only table the run itself has listed
    have : m = metadata := by
      by_contra hne
      refine hw ?_
      rw [readOrder_eq, levelOrder_zero h, levelOrder_one h, h.deeper] at hm
      rw [readOrder_eq]
      simp only [List.mem_append, List.mem_cons, List.mem_filter, ahead, behind] at hm ⊢
      tauto
    rw [this]
    exact ⟨merged, hnew.lists⟩

/-- **The answers after a run**: those without it, if the new table is the newest of
level 1 and no table that stays shares its file with a merged one. -/
theorem layer_compacted (h : Tracks without t level0 [metadata] level0 touched)
    (hnew : NewTable newPath nowMs without t level0 metadata merged)
    (hkept : ∀ m ∈ readOrder t.manifest, m ∈ readOrder without.manifest → m.path ∉ touched)
    (hnewest : ∀ m ∈ without.manifest.getLevelSstables 1, m.stamp ≤ metadata.stamp) :
    t.layer = without.layer := by
  have hahead : ahead without metadata.stamp = [] := by
    refine List.filter_eq_nil_iff.mpr ?_
    intro m hm
    simpa using hnewest m ((mem_newestFirst _).mp hm)
  obtain ⟨newer, horder, hnewer⟩ := h.order
  -- what is left of level 0 are the tables recorded since the run looked at it
  have hleft : ((levelOrder without.manifest 0).filter fun m =>
      decide (m.path ∉ level0.map SSTableMeta.path)) = newer := by
    rw [horder, List.filter_append]
    have hgone : (level0.filter fun m => decide (m.path ∉ level0.map SSTableMeta.path)) = [] := by
      refine List.filter_eq_nil_iff.mpr ?_
      intro m hm
      rw [decide_eq_true_eq]
      exact fun hnot => hnot (List.mem_map_of_mem hm)
    have hstays : (newer.filter fun m => decide (m.path ∉ level0.map SSTableMeta.path)) = newer :=
      List.filter_eq_self.mpr fun m hm => decide_eq_true (hnewer m hm)
    rw [hgone, hstays, List.append_nil]
  rw [layer_of_tracks h hnew hkept, layer_cut without metadata.stamp, hleft, hahead, horder, stack_append,
    above_assoc]
  rfl

/-- A table that stays is none of the merged ones if all paths are distinct. -/
theorem kept_of_distinct (h : Tracks without t level0 [metadata] level0 touched)
    (hpath : metadata.path = newPath) (hfresh : ¬without.Listed newPath)
    (hdistinct : ((readOrder without.manifest).map SSTableMeta.path).Nodup) {m : SSTableMeta}
    (hm : m ∈ readOrder t.manifest) : m.path ∉ level0.map SSTableMeta.path := by
  obtain ⟨newer, horder, hnewer⟩ := h.order
  -- paths are distinct, so no table of a deeper level shares its file with a merged one
  have hlower : ∀ m ∈ levelOrder without.manifest 1 ++ deeperOrder without.manifest,
      m.path ∉ level0.map SSTableMeta.path := by
    intro m hm hmem
    rw [readOrder_eq, horder, List.map_append, List.nodup_append] at hdistinct
    refine hdistinct.2.2 m.path ?_ m.path (List.mem_map_of_mem hm) rfl
    rw [List.map_append]
    exact List.mem_append_right _ hmem
  rw [readOrder_eq, levelOrder_zero h, levelOrder_one h, h.deeper] at hm
  rcases List.mem_append.mp hm with hm | hm
  · exact of_decide_eq_true (List.mem_filter.mp hm).2
  · rcases List.mem_append.mp hm with hm | hm
    · rcases List.mem_append.mp hm with hm | hm
      · exact hlower m (List.mem_append_left _ (List.mem_filter.mp hm).1)
      · rcases List.mem_cons.mp hm with rfl | hm
        · intro hmem
          obtain ⟨info, hinfo, heq⟩ := List.mem_map.mp hmem
          exact hfresh (hpath ▸ heq ▸ h.listed hinfo)
        · exact hlower m (List.mem_append_left _ (List.mem_filter.mp hm).1)
    · exact hlower m (List.mem_append_right _ hm)

/-- So the files a merging run touches are none of those still listed. -/
theorem kept_of_merged (h : Tracks without t level0 [metadata] level0 touched)
    (hpath : metadata.path = newPath) (hfresh : ¬without.Listed newPath)
    (hdistinct : ((readOrder without.manifest).map SSTableMeta.path).Nodup) :
    ∀ m ∈ readOrder t.manifest, m ∈ readOrder without.manifest →
      m.path ∉ level0.map SSTableMeta.path ++ [newPath] := by
  intro m hm hw hmem
  rcases List.mem_append.mp hmem with hmem | hmem
  · exact kept_of_distinct h hpath hfresh hdistinct hm hmem
  · exact hfresh ⟨m, hw, List.mem_singleton.mp hmem⟩

/-- What is listed after a run: the new table, and tables that were there without it. -/
theorem oneNew_of_merged (h : Tracks without t level0 [metadata] level0
      (level0.map SSTableMeta.path ++ [newPath]))
    (hnew : NewTable newPath nowMs without t level0 metadata merged) (hr : without.Readable)
    (hfresh : ¬without.Listed newPath)
    (hdistinct : ((readOrder without.manifest).map SSTableMeta.path).Nodup) :
    Tables.OneNew newPath nowMs without t := by
  have horder : readOrder t.manifest = ((levelOrder without.manifest 0).filter fun m =>
      decide (m.path ∉ level0.map SSTableMeta.path)) ++ ((ahead without metadata.stamp ++
        metadata :: behind without metadata.stamp) ++ deeperOrder without.manifest) := by
    rw [readOrder_eq, levelOrder_zero h, levelOrder_one h, h.deeper]
  have hcut : levelOrder without.manifest 1 = ahead without metadata.stamp ++ behind without metadata.stamp :=
    newestFirst_split _ _ _
  -- up to their order the tables listed are the new one and some of the old ones
  have hperm : (readOrder t.manifest).Perm
      (metadata :: (((levelOrder without.manifest 0).filter fun m =>
        decide (m.path ∉ level0.map SSTableMeta.path)) ++
          (levelOrder without.manifest 1 ++ deeperOrder without.manifest))) := by
    rw [horder, hcut]
    refine List.Perm.trans ((List.Perm.append_right _ List.perm_middle).append_left _) ?_
    exact List.perm_middle
  have hsub : (((levelOrder without.manifest 0).filter fun m =>
      decide (m.path ∉ level0.map SSTableMeta.path)) ++
        (levelOrder without.manifest 1 ++ deeperOrder without.manifest)).Sublist
      (readOrder without.manifest) := by
    rw [readOrder_eq]
    exact List.filter_sublist.append_right _
  refine ⟨readable_of_tracks h hnew hr (kept_of_merged h hnew.path hfresh hdistinct), ?_, ?_⟩
  · rw [(hperm.map _).nodup_iff, List.map_cons, List.nodup_cons]
    refine ⟨?_, (hsub.map _).nodup hdistinct⟩
    intro hmem
    obtain ⟨m, hm, heq⟩ := List.mem_map.mp hmem
    exact hfresh ⟨m, hsub.subset hm, heq.trans hnew.path⟩
  · intro m hm
    rcases List.mem_cons.mp (hperm.mem_iff.mp hm) with rfl | hm
    · exact .inr ⟨hnew.path, hnew.created⟩
    · exact .inl (hsub.subset hm)

end Tracks

/-! ## Flushes between the steps -/

/-- A run of `compact` and the tables it works on, with what the flushes alone would
have made of the tables, the tables the run merges, and the tables that flushes
recorded since it looked at level 0. -/
structure Situation where
  tables : Tables
  pc : CompactPc
  without : Tables
  level0 : List SSTableMeta
  flushed : List SSTableMeta

/-- Before the first step. -/
def start (t : Tables) : Situation := ⟨t, .idle, t, [], []⟩

/-- The clock has moved on since every recorded reading. -/
def Newer (t : Tables) (nowMs : Nat) : Prop :=
  ∀ m ∈ readOrder t.manifest, m.createdAtMs.getD 0 < nowMs

instance (t : Tables) (nowMs : Nat) : Decidable (Newer t nowMs) :=
  inferInstanceAs (Decidable (∀ m ∈ readOrder t.manifest, m.createdAtMs.getD 0 < nowMs))

/-- The run takes a step, or a flush records a table between two of its steps. -/
inductive RunStep (storagePath : Path) (timeNs nowMs : Nat) : Situation → Situation → Prop where
  | compact (s : Situation)
      (hclock : ∀ infos newSstable, s.pc = .written infos newSstable → Newer s.without nowMs) :
      RunStep storagePath timeNs nowMs s
        { s with
          tables := (next storagePath timeNs nowMs s.tables s.pc).1
          pc := (next storagePath timeNs nowMs s.tables s.pc).2
          level0 := snapshot s.level0 (next storagePath timeNs nowMs s.tables s.pc).2 }
  | flush (s : Situation) (path : Path) (items : List (Bytes × Bytes)) (flushMs : Nat)
      (t' without' : Tables) (metadata metadata' : SSTableMeta) (hbetween : s.pc ≠ .idle)
      (hname : path ≠ compactedPath storagePath timeNs ∧ ¬s.without.Listed path)
      (hclock : Newer s.without flushMs) (hitems : Ascending items ∧ items ≠ [])
      (hflush : s.tables.recordFlushed path items flushMs = some (t', metadata))
      (hwithout : s.without.recordFlushed path items flushMs = some (without', metadata')) :
      RunStep storagePath timeNs nowMs s
        { s with tables := t', without := without', flushed := metadata :: s.flushed }

/-- Whether the new table has its creation time. -/
def Stamped : CompactPc → Prop
  | .idle | .merging _ | .written _ _ | .raised _ => False
  | _ => True

/-- What holds throughout a run among flushes. -/
structure RunInv (newPath : Path) (nowMs : Nat) (s : Situation) : Prop where
  pc : PcInv newPath nowMs s.without s.tables s.level0 s.pc
  readable : s.without.Readable
  fresh : ¬s.without.Listed newPath
  distinct : ((readOrder s.without.manifest).map SSTableMeta.path).Nodup
  newest : s.level0 ≠ [] → Stamped s.pc →
    ∀ m ∈ s.without.manifest.getLevelSstables 1, m.createdAtMs.getD 0 < nowMs
  flushed : ∀ m ∈ s.flushed,
    m ∈ s.without.manifest.getLevelSstables 0 ∧ m.path ∉ s.level0.map SSTableMeta.path
  unmerged : s.pc = .idle → s.flushed = []

section Flush

variable {newPath : Path} {nowMs : Nat} {without t : Tables} {level0 : List SSTableMeta}
  {m : SSTableMeta} {content : Option Bytes}

/-- Recording a table of an unused name keeps a run on track. -/
theorem Tracks.flush {added removed : List SSTableMeta} {touched : List Path}
    (h : Tracks without t level0 added removed touched) (hname : m.path ≠ newPath)
    (hfree : ¬without.Listed m.path) (hremoved : ∀ i ∈ removed, i ∈ level0)
    (htouched : ∀ path ∈ touched, path ∈ level0.map SSTableMeta.path ∨ path = newPath)
    (hnew : ∀ m' ∈ without.manifest.getLevelSstables 0, m'.stamp ≤ m.stamp) :
    Tracks ((without.setFile m.path content).addSstable 0 m) ((t.setFile m.path content).addSstable 0 m)
      level0 added removed touched := by
  have hlevel0 : m.path ∉ level0.map SSTableMeta.path := by
    intro hmem
    obtain ⟨info, hinfo, heq⟩ := List.mem_map.mp hmem
    exact hfree (heq ▸ h.listed hinfo)
  refine h.flushed ?_ hlevel0 ?_ hnew
  · intro hmem
    rcases htouched _ hmem with hmem | heq
    · exact hlevel0 hmem
    · exact hname heq
  · intro hmem
    obtain ⟨info, hinfo, heq⟩ := List.mem_map.mp hmem
    exact hlevel0 (heq ▸ List.mem_map_of_mem (hremoved info hinfo))

theorem NewTable.flush {metadata : SSTableMeta} {merged : List (Bytes × Bytes)}
    (h : NewTable newPath nowMs without t level0 metadata merged)
    (hlisted : ∀ i ∈ level0, without.Listed i.path) (hname : m.path ≠ newPath)
    (hfree : ¬without.Listed m.path) :
    NewTable newPath nowMs ((without.setFile m.path content).addSstable 0 m)
      ((t.setFile m.path content).addSstable 0 m) level0 metadata merged := by
  refine ⟨h.merges, h.lists.congr (Function.update_of_ne ?_ ..), ?_, h.path, h.created⟩
  · intro e
    exact hname (e.symm.trans h.path)
  · rw [h.answers]
    refine (stack_congr ?_).symm
    intro i hi
    exact Function.update_of_ne (fun e : i.path = m.path => hfree (e ▸ hlisted i hi)) ..

theorem pcInv_flush {pc : CompactPc} (h : PcInv newPath nowMs without t level0 pc) (hpc : pc ≠ .idle)
    (hname : m.path ≠ newPath) (hfree : ¬without.Listed m.path)
    (hnew : ∀ m' ∈ without.manifest.getLevelSstables 0, m'.stamp ≤ m.stamp) :
    PcInv newPath nowMs ((without.setFile m.path content).addSstable 0 m)
      ((t.setFile m.path content).addSstable 0 m) level0 pc := by
  have htracks : ∀ {added removed : List SSTableMeta} {touched : List Path},
      Tracks without t level0 added removed touched → (∀ i ∈ removed, i ∈ level0) →
      (∀ path ∈ touched, path ∈ level0.map SSTableMeta.path ∨ path = newPath) →
      Tracks ((without.setFile m.path content).addSstable 0 m)
        ((t.setFile m.path content).addSstable 0 m) level0 added removed touched :=
    fun h hr ht => h.flush hname hfree hr ht hnew
  cases pc with
  | idle => exact absurd rfl hpc
  | merging infos =>
    obtain ⟨heq, hne, h⟩ := h
    exact ⟨heq, hne, htracks h (by simp) (by simp)⟩
  | written infos newSstable =>
    obtain ⟨heq, hne, hpath, merged, h, hholds, hindex, hmerged, hassoc⟩ := h
    refine ⟨heq, hne, hpath, merged, htracks h (by simp) (by simp), ?_, hindex, hmerged, ?_⟩
    · exact ⟨(Function.update_of_ne (Ne.symm hname) ..).trans hholds.file, hholds.ascending, hholds.fits⟩
    · rw [hassoc]
      refine (stack_congr ?_).symm
      intro i hi
      exact Function.update_of_ne (fun e : i.path = m.path => hfree (e ▸ h.listed hi)) ..
  | described infos metadata =>
    obtain ⟨heq, merged, h, hnewTable⟩ := h
    exact ⟨heq, merged, htracks h (by simp) (by simp),
      hnewTable.flush (fun i hi => h.listed hi) hname hfree⟩
  | added infos =>
    obtain ⟨heq, metadata, merged, h, hnewTable⟩ := h
    exact ⟨heq, metadata, merged, htracks h (by simp) (by simp),
      hnewTable.flush (fun i hi => h.listed hi) hname hfree⟩
  | removing infos rest =>
    obtain ⟨heq, metadata, merged, done, hsplit, h, hnewTable⟩ := h
    exact ⟨heq, metadata, merged, done, hsplit,
      htracks h (fun i hi => hsplit ▸ List.mem_append_left _ hi) (by simp),
      hnewTable.flush (fun i hi => h.listed hi) hname hfree⟩
  | removed infos rest =>
    obtain ⟨heq, metadata, merged, done, hsplit, h, hnewTable⟩ := h
    exact ⟨heq, metadata, merged, done, hsplit,
      htracks h (fun i hi => hsplit ▸ List.mem_append_left _ hi) (by simp),
      hnewTable.flush (fun i hi => h.listed hi) hname hfree⟩
  | unlinking rest =>
    obtain ⟨metadata, merged, done, hsplit, h, hnewTable⟩ := h
    refine ⟨metadata, merged, done, hsplit, htracks h (fun _ hi => hi) ?_,
      hnewTable.flush (fun i hi => h.listed hi) hname hfree⟩
    intro path hpath
    rcases List.mem_append.mp hpath with hpath | hpath
    · rw [hsplit, List.map_append]
      exact .inl (List.mem_append_left _ hpath)
    · exact .inr (List.mem_singleton.mp hpath)
  | returned =>
    rcases h with ⟨rfl, h⟩ | ⟨metadata, merged, h, hnewTable⟩
    · exact .inl ⟨rfl, htracks h (by simp) (by simp)⟩
    · refine .inr ⟨metadata, merged, htracks h (fun _ hi => hi) ?_,
        hnewTable.flush (fun i hi => h.listed hi) hname hfree⟩
      intro path hpath
      exact (List.mem_append.mp hpath).imp_right List.mem_singleton.mp
  | raised e => exact htracks h (by simp) (by simp)

/-- The merged tables are listed as long as nothing is taken away but by the run. -/
theorem pcInv_listed {pc : CompactPc} (h : PcInv newPath nowMs without t level0 pc) :
    ∀ i ∈ level0, without.Listed i.path := by
  intro i hi
  cases pc with
  | idle =>
    obtain ⟨rfl, -⟩ := h
    cases hi
  | merging infos => exact h.2.2.listed hi
  | written infos newSstable =>
    obtain ⟨_, _, _, _, htracks, _⟩ := h
    exact htracks.listed hi
  | described infos metadata =>
    obtain ⟨_, _, htracks, _⟩ := h
    exact htracks.listed hi
  | added infos =>
    obtain ⟨_, _, _, htracks, _⟩ := h
    exact htracks.listed hi
  | removing infos rest =>
    obtain ⟨_, _, _, _, _, htracks, _⟩ := h
    exact htracks.listed hi
  | removed infos rest =>
    obtain ⟨_, _, _, _, _, htracks, _⟩ := h
    exact htracks.listed hi
  | unlinking rest =>
    obtain ⟨_, _, _, _, htracks, _⟩ := h
    exact htracks.listed hi
  | returned =>
    rcases h with ⟨rfl, -⟩ | ⟨_, _, htracks, _⟩
    · cases hi
    · exact htracks.listed hi
  | raised e => exact Tracks.listed h hi

end Flush

section Run

variable {storagePath : Path} {timeNs nowMs : Nat}

theorem runInv_start {t : Tables} (hr : t.Readable) (hfresh : ¬t.Listed (compactedPath storagePath timeNs))
    (hdistinct : ((readOrder t.manifest).map SSTableMeta.path).Nodup) :
    RunInv (compactedPath storagePath timeNs) nowMs (start t) :=
  ⟨pcInv_idle t, hr, hfresh, hdistinct, fun h => absurd rfl h, nofun, fun _ => rfl⟩

/-- A step of the run is stamped after it only if it was before, or the clock was just
read. -/
theorem stamped_next {t : Tables} {pc : CompactPc}
    (h : Stamped (next storagePath timeNs nowMs t pc).2) :
    Stamped pc ∨ (∃ infos newSstable, pc = .written infos newSstable) ∨
      (pc = .idle ∧ (next storagePath timeNs nowMs t pc).2 = .returned) := by
  cases pc with
  | idle =>
    refine .inr (.inr ⟨rfl, ?_⟩)
    rw [next] at h ⊢
    split at h
    · next hnil => rw [if_pos hnil]
    · exact h.elim
  | merging infos =>
    rw [next] at h
    split at h
    · exact h.elim
    · split at h <;> exact h.elim
  | written infos newSstable => exact .inr (.inl ⟨infos, newSstable, rfl⟩)
  | raised e => exact h.elim
  | described | added | removing | removed | unlinking | returned => exact .inl trivial

theorem snapshot_of_ne {t : Tables} {pc : CompactPc} (hpc : pc ≠ .idle) (level0 : List SSTableMeta) :
    snapshot level0 (next storagePath timeNs nowMs t pc).2 = level0 := by
  cases pc with
  | idle => exact absurd rfl hpc
  | merging infos =>
    rw [next]
    split
    · rfl
    · split <;> rfl
  | written infos newSstable =>
    rw [next]
    split <;> rfl
  | removing infos rest => cases rest <;> rfl
  | unlinking rest => cases rest <;> rfl
  | described | added | removed | returned | raised => rfl

theorem ne_idle_next (t : Tables) (pc : CompactPc) : (next storagePath timeNs nowMs t pc).2 ≠ .idle := by
  cases pc with
  | idle =>
    rw [next]
    split <;> rintro ⟨⟩
  | merging infos =>
    rw [next]
    split
    · rintro ⟨⟩
    · split <;> rintro ⟨⟩
  | written infos newSstable =>
    rw [next]
    split <;> rintro ⟨⟩
  | removing infos rest => cases rest <;> rintro ⟨⟩
  | unlinking rest => cases rest <;> rintro ⟨⟩
  | described | added | removed | returned | raised => rintro ⟨⟩

/-- Every point of a run without flushes that has started. -/
theorem pcInv_steps {t : Tables} (hr : t.Readable) (hfresh : ¬t.Listed (compactedPath storagePath timeNs))
    {s : Tables × CompactPc} (h : Steps storagePath timeNs nowMs (t, .idle) s) :
    s = (t, .idle) ∨ s.2 ≠ .idle ∧
      PcInv (compactedPath storagePath timeNs) nowMs t s.1 (levelOrder t.manifest 0) s.2 := by
  -- by induction on the steps; the first one fixes the tables to be merged
  induction h with
  | refl => exact .inl rfl
  | @tail r s _ hstep ih =>
    right
    obtain rfl : next storagePath timeNs nowMs r.1 r.2 = s := hstep
    refine ⟨ne_idle_next _ _, ?_⟩
    rcases ih with rfl | ⟨hne, hpc⟩
    · show PcInv _ _ _ (next storagePath timeNs nowMs t .idle).1 _
        (next storagePath timeNs nowMs t .idle).2
      rw [next, map_snd_iterSstableMetadata_level]
      split
      · next hnil =>
        rw [hnil]
        exact .inl ⟨rfl, tracks_refl t⟩
      · next hne => exact ⟨rfl, hne, tracks_self t⟩
    · have hkeep := pcInv_next hpc hr hfresh
      rwa [snapshot_of_ne hne] at hkeep

theorem runInv_step {s s' : Situation} (h : RunInv (compactedPath storagePath timeNs) nowMs s)
    (hstep : RunStep storagePath timeNs nowMs s s') :
    RunInv (compactedPath storagePath timeNs) nowMs s' := by
  cases hstep with
  | compact hclock =>
    have hpc := pcInv_next h.pc h.readable h.fresh
    refine ⟨hpc, h.readable, h.fresh, h.distinct, ?_, ?_, fun hidle => absurd hidle (ne_idle_next _ _)⟩
    · intro hne hstamped m hm
      rcases stamped_next hstamped with hstamped | ⟨infos, newSstable, hwritten⟩ | ⟨hidle, hdone⟩
      · have hsame : snapshot s.level0 (next storagePath timeNs nowMs s.tables s.pc).2 = s.level0 :=
          snapshot_of_ne (fun e => by rw [e] at hstamped; exact hstamped) s.level0
        exact h.newest (hsame ▸ hne) hstamped m hm
      · exact hclock infos newSstable hwritten m (mem_readOrder.mpr ⟨1, hm⟩)
      · -- nothing was merged
        have hempty := h.pc
        rw [hidle] at hempty
        simp only [hdone, snapshot] at hne
        exact absurd hempty.1 hne
    · intro m hm
      by_cases hidle : s.pc = .idle
      · rw [show s.flushed = [] from h.unmerged hidle] at hm
        cases hm
      · rw [snapshot_of_ne hidle]
        exact h.flushed m hm
  | flush path items flushMs t' without' metadata metadata' hbetween hname hclock hitems hflush hwithout =>
    rcases Tables.recordFlushed_eq hitems.1 hitems.2 path flushMs with hnone | ⟨m, rfl, hcreated, hsome⟩
    · rw [hnone] at hflush
      cases hflush
    · obtain ⟨hrun, -⟩ := hsome s.tables
      obtain ⟨hrunWithout, hlists⟩ := hsome s.without
      obtain ⟨rfl, rfl⟩ := Prod.mk.inj (Option.some.inj (hflush.symm.trans hrun))
      obtain ⟨rfl, -⟩ := Prod.mk.inj (Option.some.inj (hwithout.symm.trans hrunWithout))
      obtain ⟨hother, hfree⟩ := hname
      have hnew : ∀ m' ∈ s.without.manifest.getLevelSstables 0, m'.stamp ≤ metadata.stamp := by
        intro m' hm'
        refine stamp_le_of_lt ?_
        rw [hcreated]
        exact hclock m' (mem_readOrder.mpr ⟨0, hm'⟩)
      have hlevel0 : metadata.path ∉ s.level0.map SSTableMeta.path := by
        intro hmem
        obtain ⟨info, hinfo, heq⟩ := List.mem_map.mp hmem
        exact hfree (heq ▸ pcInv_listed h.pc info hinfo)
      have hentries0 : (s.without.manifest.addEntry 0 metadata).getLevelSstables 0 =
          s.without.manifest.getLevelSstables 0 ++ [metadata] := by
        rw [Manifest.getLevelSstables_addEntry, if_pos rfl]
      -- both sides record the same entry: the answers of the two stay comparable
      refine ⟨pcInv_flush h.pc hbetween hother hfree hnew, ?_, ?_, ?_, ?_, ?_, fun hidle => absurd hidle hbetween⟩
      · exact Tables.readable_addSstable (Tables.readable_setFile h.readable hfree _) ⟨items, hlists⟩ 0
      · rintro hlisted
        rcases Tables.listed_addSstable.mp hlisted with heq | hlisted
        · exact hother heq.symm
        · exact h.fresh hlisted
      · have horder : readOrder (s.without.manifest.addEntry 0 metadata) =
            metadata :: readOrder s.without.manifest := by
          have h0 : levelOrder (s.without.manifest.addEntry 0 metadata) 0 =
              metadata :: levelOrder s.without.manifest 0 := by
            rw [levelOrder, hentries0]
            exact newestFirst_concat_of_le _ hnew
          have h1 : levelOrder (s.without.manifest.addEntry 0 metadata) 1 =
              levelOrder s.without.manifest 1 := by
            rw [levelOrder, Manifest.getLevelSstables_addEntry, if_neg (by decide)]
            rfl
          rw [readOrder_eq, readOrder_eq, h0, h1, deeperOrder_set s.without.manifest _ (Nat.zero_le 1) rfl]
          rfl
        show ((readOrder (s.without.manifest.addEntry 0 metadata)).map SSTableMeta.path).Nodup
        rw [horder]
        refine List.nodup_cons.mpr ⟨?_, h.distinct⟩
        intro hmem
        obtain ⟨m', hm', heq⟩ := List.mem_map.mp hmem
        exact hfree ⟨m', hm', heq⟩
      · intro hne hstamped m' hm'
        refine h.newest hne hstamped m' ?_
        have : m' ∈ (s.without.manifest.addEntry 0 metadata).getLevelSstables 1 := hm'
        rwa [Manifest.getLevelSstables_addEntry, if_neg (by decide)] at this
      · intro m' hm'
        show m' ∈ (s.without.manifest.addEntry 0 metadata).getLevelSstables 0 ∧ _
        rw [hentries0]
        rcases List.mem_cons.mp hm' with rfl | hm'
        · exact ⟨List.mem_append_right _ (List.mem_singleton_self _), hlevel0⟩
        · exact ⟨List.mem_append_left _ (h.flushed m' hm').1, (h.flushed m' hm').2⟩

theorem runInv_run {s s' : Situation} (h : RunInv (compactedPath storagePath timeNs) nowMs s)
    (hrun : Relation.ReflTransGen (RunStep storagePath timeNs nowMs) s s') :
    RunInv (compactedPath storagePath timeNs) nowMs s' := by
  induction hrun with
  | refl => exact h
  | tail _ hstep ih => exact runInv_step ih hstep

/-- After a run that returned the tables can be read, and answer as without it. -/
theorem returned_spec {newPath : Path} {s : Situation} (h : RunInv newPath nowMs s)
    (hdone : s.pc = .returned) : s.tables.Readable ∧ s.tables.layer = s.without.layer := by
  have hpc := h.pc
  rw [hdone] at hpc
  rcases hpc with ⟨-, htracks⟩ | ⟨metadata, merged, htracks, hnew⟩
  · refine ⟨?_, layer_of_tracks_nil htracks (by simp)⟩
    intro m hm
    rw [readOrder_of_tracks_nil htracks] at hm
    exact (h.readable m hm).congr (htracks.files m.path (by simp))
  · have hkept := kept_of_merged htracks hnew.path h.fresh h.distinct
    refine ⟨readable_of_tracks htracks hnew h.readable hkept, layer_compacted htracks hnew hkept ?_⟩
    intro m hm
    refine stamp_le_of_lt ?_
    rw [hnew.created]
    exact h.newest hnew.merges (by rw [hdone]; trivial) m hm

/-- It has listed at most one new table. -/
theorem returned_oneNew {newPath : Path} {s : Situation} (h : RunInv newPath nowMs s)
    (hdone : s.pc = .returned) : Tables.OneNew newPath nowMs s.without s.tables := by
  have hpc := h.pc
  rw [hdone] at hpc
  rcases hpc with ⟨-, htracks⟩ | ⟨metadata, merged, htracks, hnew⟩
  · have horder := readOrder_of_tracks_nil htracks
    exact ⟨(returned_spec h hdone).1, by rw [horder]; exact h.distinct, fun m hm => .inl (horder ▸ hm)⟩
  · exact oneNew_of_merged htracks hnew h.readable h.fresh h.distinct

/-- Level 0 is looked at once, by the first step: what is merged is what it listed then. -/
theorem level0_run {t : Tables} {s : Situation}
    (hrun : Relation.ReflTransGen (RunStep storagePath timeNs nowMs) (start t) s) :
    s = start t ∨ s.pc ≠ .idle ∧ s.level0 = levelOrder t.manifest 0 := by
  induction hrun with
  | refl => exact .inl rfl
  | @tail s s' _ hstep ih =>
    refine .inr ?_
    cases hstep with
    | compact hclock =>
      refine ⟨ne_idle_next _ _, ?_⟩
      rcases ih with rfl | ⟨hne, hlevel0⟩
      · show snapshot [] (next storagePath timeNs nowMs t .idle).2 = _
        rw [next, map_snd_iterSstableMetadata_level]
        split
        · next hnil => exact hnil.symm
        · rfl
      · exact (snapshot_of_ne hne _).trans hlevel0
    | flush path items flushMs t' without' metadata metadata' hbetween hname hclock hitems hflush hwithout =>
      rcases ih with rfl | hkept
      · exact absurd rfl hbetween
      · exact hkept

/-- **A completed compaction preserves meaning**: whatever flushes record between
its steps, once `compact` has returned every key is answered as the tables would
have answered it without the compaction, every table recorded meanwhile is still in
level 0, and none is that was listed there when the compaction looked, which are the
tables it has merged. -/
theorem compaction_preserves {t : Tables} {s : Situation} (hr : t.Readable)
    (hfresh : ¬t.Listed (compactedPath storagePath timeNs))
    (hdistinct : ((readOrder t.manifest).map SSTableMeta.path).Nodup)
    (hrun : Relation.ReflTransGen (RunStep storagePath timeNs nowMs) (start t) s)
    (hdone : s.pc = .returned) :
    (∀ key, s.tables.get key = s.without.get key) ∧
      (∀ m ∈ s.flushed, m ∈ s.tables.manifest.getLevelSstables 0) ∧
      s.level0 = levelOrder t.manifest 0 ∧ ∀ m ∈ s.level0, m ∉ s.tables.manifest.getLevelSstables 0 := by
  have h := runInv_run (runInv_start hr hfresh hdistinct) hrun
  obtain ⟨hreadable, hlayer⟩ := returned_spec h hdone
  constructor
  · intro key
    rw [Tables.get_eq hreadable, Tables.get_eq h.readable, hlayer]
  · have hlevel0 : s.tables.manifest.getLevelSstables 0 =
        (s.without.manifest.getLevelSstables 0).filter fun m =>
          decide (m.path ∉ s.level0.map SSTableMeta.path) := by
      have hpc := h.pc
      rw [hdone] at hpc
      rcases hpc with ⟨hnil, htracks⟩ | ⟨metadata, merged, htracks, hnew⟩
      · rw [hnil]
        exact htracks.atLevel0
      · exact htracks.atLevel0
    rw [hlevel0]
    have hmerged : s.level0 = levelOrder t.manifest 0 := by
      rcases level0_run hrun with rfl | ⟨-, hmerged⟩
      · cases hdone
      · exact hmerged
    refine ⟨fun m hm => List.mem_filter.mpr ⟨(h.flushed m hm).1, decide_eq_true (h.flushed m hm).2⟩, hmerged, ?_⟩
    intro m hm hmem
    exact of_decide_eq_true (List.mem_filter.mp hmem).2 (List.mem_map_of_mem hm)

/-! ## A compaction on its own -/

/-- The run takes its next step. -/
def Situation.advance (storagePath : Path) (timeNs nowMs : Nat) (s : Situation) : Situation :=
  { s with
    tables := (next storagePath timeNs nowMs s.tables s.pc).1
    pc := (next storagePath timeNs nowMs s.tables s.pc).2
    level0 := snapshot s.level0 (next storagePath timeNs nowMs s.tables s.pc).2 }

/-- A flush records a table between two of its steps, with the compaction as without it. -/
def Situation.flush (path : Path) (items : List (Bytes × Bytes)) (flushMs : Nat) (s : Situation) : Situation :=
  match s.tables.recordFlushed path items flushMs, s.without.recordFlushed path items flushMs with
  | some (t, metadata), some (without, _) =>
    { s with tables := t, without := without, flushed := metadata :: s.flushed }
  | _, _ => s

/-- Steps without flushes in between. -/
theorem run_advance (storagePath : Path) (timeNs : Nat) {s : Situation} (hclock : Newer s.without nowMs) (n : Nat) :
    Relation.ReflTransGen (RunStep storagePath timeNs nowMs) s
        ((Situation.advance storagePath timeNs nowMs)^[n] s) ∧
      ((Situation.advance storagePath timeNs nowMs)^[n] s).without = s.without := by
  induction n with
  | zero => exact ⟨.refl, rfl⟩
  | succ n ih =>
    obtain ⟨hrun, hwithout⟩ := ih
    rw [Function.iterate_succ_apply']
    refine ⟨hrun.tail (.compact _ ?_), hwithout⟩
    intro _ _ _
    rwa [hwithout]

/-- A flush in between, if it finds an unused name and a later time. -/
theorem run_flush {s : Situation} {path : Path} {items : List (Bytes × Bytes)} {flushMs : Nat}
    (hbetween : s.pc ≠ .idle) (hname : path ≠ compactedPath storagePath timeNs ∧ ¬s.without.Listed path)
    (hclock : Newer s.without flushMs) (hitems : Ascending items ∧ items ≠ []) :
    Relation.ReflTransGen (RunStep storagePath timeNs nowMs) s (s.flush path items flushMs) := by
  rw [Situation.flush]
  split
  · next hflush hwithout =>
    exact .single (.flush s path items flushMs _ _ _ _ hbetween hname hclock hitems hflush hwithout)
  · exact .refl

/-- A whole `compact` either leaves what is listed alone, or has merged level 0. -/
theorem compact_cases {t : Tables} (hr : t.Readable)
    (hfresh : ¬t.Listed (compactedPath storagePath timeNs)) :
    (∃ level0 touched, (∀ path ∈ touched, ¬t.Listed path) ∧
        Tracks t (compact storagePath timeNs nowMs t) level0 [] [] touched) ∨
      ∃ metadata merged,
        Tracks t (compact storagePath timeNs nowMs t) (levelOrder t.manifest 0) [metadata]
          (levelOrder t.manifest 0) ((levelOrder t.manifest 0).map SSTableMeta.path ++
            [compactedPath storagePath timeNs]) ∧
        NewTable (compactedPath storagePath timeNs) nowMs t (compact storagePath timeNs nowMs t)
          (levelOrder t.manifest 0) metadata merged := by
  obtain ⟨pc, hpc, hsteps⟩ := compact_reached storagePath timeNs nowMs t
  have hinv : PcInv (compactedPath storagePath timeNs) nowMs t (compact storagePath timeNs nowMs t)
      (levelOrder t.manifest 0) pc := by
    -- a run that has ended has left its start
    rcases pcInv_steps hr hfresh hsteps with heq | ⟨-, hinv⟩
    · rcases hpc with rfl | ⟨e, rfl⟩ <;> exact nomatch congrArg Prod.snd heq
    · exact hinv
  rcases hpc with rfl | ⟨e, rfl⟩
  · rcases hinv with ⟨-, htracks⟩ | hmerged
    · exact .inl ⟨[], [], by simp, htracks⟩
    · exact .inr hmerged
  · refine .inl ⟨_, _, ?_, hinv⟩
    intro path hp
    rwa [List.mem_singleton.mp hp]

/-- **A whole compaction leaves readable tables**, whatever the clock showed. -/
theorem compact_oneNew {t : Tables} (hr : t.Readable)
    (hfresh : ¬t.Listed (compactedPath storagePath timeNs))
    (hdistinct : ((readOrder t.manifest).map SSTableMeta.path).Nodup) (nowMs : Nat) :
    Tables.OneNew (compactedPath storagePath timeNs) nowMs t (compact storagePath timeNs nowMs t) := by
  rcases compact_cases hr hfresh with ⟨level0, touched, hunlisted, htracks⟩ | ⟨metadata, merged, htracks, hnew⟩
  · have horder := readOrder_of_tracks_nil htracks
    refine ⟨?_, by rwa [horder], fun m hm => .inl (horder ▸ hm)⟩
    intro m hm
    rw [horder] at hm
    exact (hr m hm).congr (htracks.files m.path fun hp => hunlisted _ hp ⟨m, hm, rfl⟩)
  · exact oneNew_of_merged htracks hnew hr hfresh hdistinct

/-- **A whole compaction changes no answer**, if the clock has moved on. -/
theorem layer_compact {t : Tables} (hr : t.Readable)
    (hfresh : ¬t.Listed (compactedPath storagePath timeNs))
    (hdistinct : ((readOrder t.manifest).map SSTableMeta.path).Nodup) (hclock : Newer t nowMs) :
    (compact storagePath timeNs nowMs t).layer = t.layer := by
  rcases compact_cases hr hfresh with ⟨level0, touched, hunlisted, htracks⟩ | ⟨metadata, merged, htracks, hnew⟩
  · exact layer_of_tracks_nil htracks hunlisted
  · refine layer_compacted htracks hnew (kept_of_merged htracks hnew.path hfresh hdistinct)
      fun m hm => stamp_le_of_lt ?_
    rw [hnew.created]
    exact hclock m (mem_readOrder.mpr ⟨1, hm⟩)

end Run

/-! ## Two tables merged -/

/-- Two overlapping tables of level 0, the second one newer. -/
def twoTables : Tables :=
  (Tables.fresh.flushed (sstablePath "db" 1) [([97], [1]), ([98], [1])] 1).flushed
    (sstablePath "db" 2) [([97], [2])] 2

theorem readable_twoTables : twoTables.Readable := by
  refine Tables.readable_flushed (Tables.readable_flushed Tables.readable_fresh ?_ ?_ ?_) ?_ ?_ ?_
  all_goals decide +kernel

/-- Their compaction, with a flush after its first step, which has looked at level 0. -/
def flushedMeanwhile : Situation :=
  (Situation.advance "db" 7 7)^[12]
    (((Situation.advance "db" 7 7)^[1] (start twoTables)).flush (sstablePath "db" 3) [([98], [3]), ([99], [3])] 3)

theorem run_flushedMeanwhile :
    Relation.ReflTransGen (RunStep "db" 7 7) (start twoTables) flushedMeanwhile := by
  refine (run_advance "db" 7 (by decide +kernel) 1).1.trans
    ((run_flush ?_ ?_ ?_ ?_).trans (run_advance "db" 7 (by decide +kernel) 12).1)
  · rintro ⟨⟩
  all_goals decide +kernel

/-- One key is answered by the merged table, two by the one flushed meanwhile, which is all
that is left in level 0. -/
theorem compaction_preserves_twoTables :
    flushedMeanwhile.tables.get [97] = .ok (some [2]) ∧ flushedMeanwhile.tables.get [98] = .ok (some [3]) ∧
      flushedMeanwhile.tables.get [99] = .ok (some [3]) ∧
      flushedMeanwhile.flushed.length = 1 ∧
      (∀ m ∈ flushedMeanwhile.flushed, m ∈ flushedMeanwhile.tables.manifest.getLevelSstables 0) ∧
      ∀ m ∈ levelOrder twoTables.manifest 0, m ∉ flushedMeanwhile.tables.manifest.getLevelSstables 0 := by
  obtain ⟨hget, hkept, hmerged, hgone⟩ := compaction_preserves readable_twoTables (by decide +kernel)
    (by decide +kernel) run_flushedMeanwhile (by rfl)
  rw [hmerged] at hgone
  exact ⟨(hget [97]).trans (by decide +kernel), (hget [98]).trans (by decide +kernel),
    (hget [99]).trans (by decide +kernel), rfl, hkept, hgone⟩

end CompactionManager

end Logvine
