import Logvine.Storage.CompactionRun

/-!
# A compaction that stops half-way

Where a run of `compact` may stop (`Stop`): an exception ends it between two of
its steps or in the middle of writing the new table, or the process dies and the
manifest is read from its file again.

- `shows_of_stop`: in memory and in the file, the manifest lists either what it
  listed before the run, or the new table instead of the first few merged ones;
- `stops_unseen_iff`: no such stop changes an answer exactly if the merged tables
  agree on the keys they share and no table of level 1 that is consulted before
  the new one contradicts them, or the merge cannot be written at all.

The merged entries are removed from the newest on, so a stop in between leaves
older versions in front of the merged table (`stops_seen`).

`compact` catches every exception and takes nothing back (`compaction.py`, 146–151), and
nothing at the next start looks for a compaction that did not end (`engine.py`, 111–117). So
the tables stay as the stop left them.
-/

namespace Logvine

open Layer SSTableManager

namespace CompactionManager

/-! ## Where a run may stop -/

/-- Before the first file is unlinked. -/
def CompactPc.Updating : CompactPc → Prop
  | .unlinking _ | .returned => False
  | _ => True

/-- The tables that a run on `t` leaves behind when it stops: between two steps, or
with some part of the new file written. -/
inductive Stop (storagePath : Path) (timeNs nowMs : Nat) (t : Tables) : Tables → Prop where
  | between {t' : Tables} {pc : CompactPc} (h : Steps storagePath timeNs nowMs (t, .idle) (t', pc))
      (hpc : pc.Updating) : Stop storagePath timeNs nowMs t t'
  | writing {t' : Tables} {level0 : List SSTableMeta}
      (h : Steps storagePath timeNs nowMs (t, .idle) (t', .merging level0)) (content : Option Bytes) :
      Stop storagePath timeNs nowMs t (t'.setFile (compactedPath storagePath timeNs) content)

/-- The merged tables do not contradict each other, nor do the tables of level 1 that
will be consulted before the new one contradict them. -/
structure SafeToStop (storagePath : Path) (timeNs nowMs : Nat) (t : Tables) : Prop where
  agree : ∀ m ∈ levelOrder t.manifest 0,
    Below (tableLayer t.files m) (stack t.files (levelOrder t.manifest 0))
  unshadowed : Below (stack t.files (levelOrder t.manifest 0))
    (above (stack t.files (ahead t (toLex (nowMs, compactedPath storagePath timeNs))))
      (stack t.files (levelOrder t.manifest 0)))

/-- No table can hold what the tables of level 0 hold together. -/
def Unwritable (t : Tables) : Prop :=
  ∀ pairs, Ascending pairs → assoc pairs = stack t.files (levelOrder t.manifest 0) →
    ¬SSTable.Fits pairs

/-! ## What a stopped run shows -/

section Shows

variable {newPath : Path} {nowMs : Nat} {t t' t'' : Tables} {level0 : List SSTableMeta} {pc : CompactPc}

/-- The tables `t'` list what `t` lists, or the new table instead of the first merged
ones. -/
def Shows (newPath : Path) (nowMs : Nat) (t t' : Tables) (level0 : List SSTableMeta) : Prop :=
  Tracks t t' level0 [] [] [newPath] ∨ ∃ metadata merged done rest, level0 = done ++ rest ∧
    Tracks t t' level0 [metadata] done [newPath] ∧ NewTable newPath nowMs t t' level0 metadata merged

theorem Tracks.mono {added removed : List SSTableMeta} {touched touched' : List Path}
    (h : Tracks t t' level0 added removed touched) (hsub : touched ⊆ touched') :
    Tracks t t' level0 added removed touched' :=
  ⟨h.atLevel0, h.atLevel1, h.deeper, h.order, fun path hp => h.files path fun hmem => hp (hsub hmem)⟩

/-- Only the levels and the files matter. -/
theorem Tracks.congr {added removed : List SSTableMeta} {touched : List Path}
    (h : Tracks t t' level0 added removed touched) (hlevels : t''.manifest.levels = t'.manifest.levels)
    (hfiles : t''.files = t'.files) : Tracks t t'' level0 added removed touched := by
  have hat : ∀ level, t''.manifest.getLevelSstables level = t'.manifest.getLevelSstables level :=
    fun level => by rw [Manifest.getLevelSstables, Manifest.getLevelSstables, hlevels]
  refine ⟨(hat 0).trans h.atLevel0, (hat 1).trans h.atLevel1, ?_, h.order, ?_⟩
  · rw [← h.deeper, deeperOrder, deeperOrder, Manifest.iterLevels, Manifest.iterLevels, hlevels]
  · rw [hfiles]
    exact h.files

theorem Shows.congr (h : Shows newPath nowMs t t' level0)
    (hlevels : t''.manifest.levels = t'.manifest.levels) (hfiles : t''.files = t'.files) :
    Shows newPath nowMs t t'' level0 := by
  rcases h with h | ⟨metadata, merged, done, rest, hsplit, h, hnew⟩
  · exact .inl (h.congr hlevels hfiles)
  · exact .inr ⟨metadata, merged, done, rest, hsplit, h.congr hlevels hfiles, hnew.merges,
      hnew.lists.congr (congrFun hfiles _), hnew.answers, hnew.path, hnew.created⟩

/-- In memory, a run on its way shows that. -/
theorem shows_of_pcInv (h : PcInv newPath nowMs t t' level0 pc) (hpc : pc.Updating) :
    Shows newPath nowMs t t' level0 := by
  cases pc with
  | idle =>
    obtain ⟨rfl, h⟩ := h
    exact .inl (h.mono (by simp))
  | merging infos => exact .inl (h.2.2.mono (by simp))
  | written infos newSstable =>
    obtain ⟨_, _, _, _, h, _⟩ := h
    exact .inl h
  | described infos metadata =>
    obtain ⟨_, _, h, _⟩ := h
    exact .inl h
  | added infos =>
    obtain ⟨_, metadata, merged, h, hnew⟩ := h
    exact .inr ⟨metadata, merged, [], level0, rfl, h, hnew⟩
  | removing infos rest | removed infos rest =>
    obtain ⟨_, metadata, merged, done, hsplit, h, hnew⟩ := h
    exact .inr ⟨metadata, merged, done, rest, hsplit, h, hnew⟩
  | unlinking rest => exact hpc.elim
  | returned => exact hpc.elim
  | raised e => exact .inl h

/-- What the manifest file shows at each point of a run: nothing of it before the
entry of the new table is saved. -/
def SavedInv (newPath : Path) (nowMs : Nat) (t t' : Tables) (level0 : List SSTableMeta) :
    CompactPc → Prop
  | .removing _ _ | .removed _ _ => Shows newPath nowMs t t'.reload level0
  | .unlinking _ | .returned => True
  | _ => Tracks t t'.reload level0 [] [] [newPath]

theorem shows_of_savedInv (h : SavedInv newPath nowMs t t' level0 pc) (hpc : pc.Updating) :
    Shows newPath nowMs t t'.reload level0 := by
  cases pc with
  | removing infos rest => exact h
  | removed infos rest => exact h
  | unlinking rest => exact hpc.elim
  | returned => exact hpc.elim
  | idle | merging | written | described | added | raised => exact .inl h

/-- Merging and writing change one file and nothing else. -/
theorem next_merging (storagePath : Path) (timeNs nowMs : Nat) (t : Tables) (infos : List SSTableMeta) :
    ∃ content, (next storagePath timeNs nowMs t (.merging infos)).1 =
        t.setFile (compactedPath storagePath timeNs) content ∧
      ((∃ newSstable, (next storagePath timeNs nowMs t (.merging infos)).2 = .written infos newSstable) ∨
        ∃ e, (next storagePath timeNs nowMs t (.merging infos)).2 = .raised e) := by
  rw [next]
  split
  · next e _ => exact ⟨none, rfl, .inr ⟨e, rfl⟩⟩
  · next merged _ =>
    obtain ⟨content, heq⟩ := t.write_eq_setFile (.init (compactedPath storagePath timeNs) 1) merged
    split
    · next t' e hw => exact ⟨content, (congrArg Prod.fst hw).symm.trans heq, .inr ⟨e, rfl⟩⟩
    · next t' newSstable hw =>
      exact ⟨content, (congrArg Prod.fst hw).symm.trans heq, .inl ⟨newSstable, rfl⟩⟩

/-- **What the file shows follows what is in memory**, one saving behind at most. -/
theorem savedInv_next {storagePath : Path} {timeNs : Nat}
    (h : SavedInv (compactedPath storagePath timeNs) nowMs t t' level0 pc)
    (hpc : PcInv (compactedPath storagePath timeNs) nowMs t t' level0 pc) (hne : pc ≠ .idle) :
    SavedInv (compactedPath storagePath timeNs) nowMs t (next storagePath timeNs nowMs t' pc).1 level0
      (next storagePath timeNs nowMs t' pc).2 := by
  cases pc with
  | idle => exact absurd rfl hne
  | merging infos =>
    have hset : ∀ content, Tracks t (t'.setFile (compactedPath storagePath timeNs) content).reload level0
        [] [] [compactedPath storagePath timeNs] := fun content =>
      (Tracks.setFile h (compactedPath storagePath timeNs) content).mono (by simp)
    obtain ⟨content, hfst, hpc'⟩ := next_merging storagePath timeNs nowMs t' infos
    rw [hfst]
    rcases hpc' with ⟨newSstable, hpc'⟩ | ⟨e, hpc'⟩
    · rw [hpc']
      exact hset content
    · rw [hpc']
      exact hset content
  | written infos newSstable =>
    rw [next]
    split <;> exact h
  | described infos metadata => exact h
  | added infos =>
    exact (shows_of_pcInv hpc trivial).congr rfl rfl
  | removing infos rest =>
    cases rest with
    | nil => trivial
    | cons info rest => exact h
  | removed infos rest => exact (shows_of_pcInv hpc trivial).congr rfl rfl
  | unlinking rest => cases rest <;> trivial
  | returned => trivial
  | raised e => exact h

end Shows

section Runs

variable {storagePath : Path} {timeNs nowMs : Nat} {t t' : Tables}

/-- **Every point of a run** that has started keeps to `SavedInv`. -/
theorem savedInv_steps (hr : t.Readable) (hfresh : ¬t.Listed (compactedPath storagePath timeNs))
    (hsaved : t.reload.manifest.levels = t.manifest.levels) {s : Tables × CompactPc}
    (h : Steps storagePath timeNs nowMs (t, .idle) s) (hne : s.2 ≠ .idle) :
    SavedInv (compactedPath storagePath timeNs) nowMs t s.1 (levelOrder t.manifest 0) s.2 := by
  induction h with
  | refl => exact absurd rfl hne
  | @tail r s hsteps hstep ih =>
    obtain rfl : next storagePath timeNs nowMs r.1 r.2 = s := hstep
    rcases pcInv_steps hr hfresh hsteps with rfl | ⟨hstarted, hpc⟩
    · show SavedInv _ _ _ (next storagePath timeNs nowMs t .idle).1 _
        (next storagePath timeNs nowMs t .idle).2
      rw [next]
      split
      · trivial
      · exact ((tracks_self t).mono (by simp)).congr hsaved rfl
    · exact savedInv_next (ih hstarted) hpc hstarted

/-- Whatever the stop, memory and file show what was there or a part of the update. -/
theorem shows_of_stop (hr : t.Readable) (hfresh : ¬t.Listed (compactedPath storagePath timeNs))
    (hsaved : t.reload.manifest.levels = t.manifest.levels)
    (h : Stop storagePath timeNs nowMs t t') :
    Shows (compactedPath storagePath timeNs) nowMs t t' (levelOrder t.manifest 0) ∧
      Shows (compactedPath storagePath timeNs) nowMs t t'.reload (levelOrder t.manifest 0) := by
  have hself := (tracks_self t).mono (List.nil_subset [compactedPath storagePath timeNs])
  cases h with
  | between h hpc =>
    rcases pcInv_steps hr hfresh h with heq | ⟨hstarted, hinv⟩
    · obtain ⟨rfl, rfl⟩ := Prod.mk.inj heq
      exact ⟨.inl hself, .inl (hself.congr hsaved rfl)⟩
    · exact ⟨shows_of_pcInv hinv hpc, shows_of_savedInv (savedInv_steps hr hfresh hsaved h hstarted) hpc⟩
  | writing h content =>
    rcases pcInv_steps hr hfresh h with heq | ⟨hstarted, -, -, htracks⟩
    · cases (Prod.mk.inj heq).2
    · have hfile : Tracks t _ _ _ _ _ := savedInv_steps hr hfresh hsaved h hstarted
      exact ⟨.inl (htracks.setFile _ content), .inl ((hfile.setFile _ content).mono (by simp))⟩

/-! ## Which stops are seen -/

theorem newTable_stamp {metadata : SSTableMeta} {merged : List (Bytes × Bytes)} {level0 : List SSTableMeta}
    (h : NewTable (compactedPath storagePath timeNs) nowMs t t' level0 metadata merged) :
    metadata.stamp = toLex (nowMs, compactedPath storagePath timeNs) := by
  rw [SSTableMeta.stamp, h.created, h.path]
  rfl

/-- The answers while the first merged entries are gone. -/
theorem layer_of_shown {metadata : SSTableMeta} {merged : List (Bytes × Bytes)} {done : List SSTableMeta}
    (hfresh : ¬t.Listed (compactedPath storagePath timeNs))
    (h : Tracks t t' (levelOrder t.manifest 0) [metadata] done [compactedPath storagePath timeNs])
    (hnew : NewTable (compactedPath storagePath timeNs) nowMs t t' (levelOrder t.manifest 0) metadata
      merged) :
    t'.layer = above (stack t.files ((levelOrder t.manifest 0).filter fun m =>
        decide (m.path ∉ done.map SSTableMeta.path)))
      (above (stack t.files (ahead t (toLex (nowMs, compactedPath storagePath timeNs))))
        (above (stack t.files (levelOrder t.manifest 0))
          (above (stack t.files (behind t (toLex (nowMs, compactedPath storagePath timeNs))))
            (stack t.files (deeperOrder t.manifest))))) := by
  rw [← newTable_stamp hnew]
  refine layer_of_tracks h hnew ?_
  intro m _ hm hmem
  exact hfresh ⟨m, hm, List.mem_singleton.mp hmem⟩

/-- What is listed can be read as long as no file is missing. -/
theorem readable_of_shows (hr : t.Readable) (hfresh : ¬t.Listed (compactedPath storagePath timeNs))
    (h : Shows (compactedPath storagePath timeNs) nowMs t t' (levelOrder t.manifest 0)) :
    t'.Readable := by
  have hunlisted : ∀ m ∈ readOrder t.manifest, m.path ∉ [compactedPath storagePath timeNs] :=
    fun m hm hmem => hfresh ⟨m, hm, List.mem_singleton.mp hmem⟩
  rcases h with h | ⟨metadata, merged, done, rest, -, h, hnew⟩
  · intro m hm
    rw [readOrder_of_tracks_nil h] at hm
    exact (hr m hm).congr (h.files m.path (hunlisted m hm))
  · exact readable_of_tracks h hnew hr fun m _ => hunlisted m

/-- **Safe stops are not seen.** -/
theorem get_of_shows (hr : t.Readable) (hfresh : ¬t.Listed (compactedPath storagePath timeNs))
    (hsafe : SafeToStop storagePath timeNs nowMs t ∨ Unwritable t)
    (h : Shows (compactedPath storagePath timeNs) nowMs t t' (levelOrder t.manifest 0)) (key : Bytes) :
    t'.get key = t.get key := by
  suffices hlayer : t'.layer = t.layer by
    rw [Tables.get_eq (readable_of_shows hr hfresh h), Tables.get_eq hr, hlayer]
  rcases h with h | ⟨metadata, merged, done, rest, -, h, hnew⟩
  · exact layer_of_tracks_nil h fun path hp => List.mem_singleton.mp hp ▸ hfresh
  · rcases hsafe with hsafe | hbig
    -- the entries left agree with the merge, so they may sink below it again
    · have hbelow : Below (stack t.files ((levelOrder t.manifest 0).filter fun m =>
          decide (m.path ∉ done.map SSTableMeta.path))) (stack t.files (levelOrder t.manifest 0)) := by
        refine below_resolve ?_
        intro f hf
        obtain ⟨m, hm, rfl⟩ := List.mem_map.mp hf
        exact hsafe.agree m (List.mem_filter.mp hm).1
      rw [layer_of_shown hfresh h hnew, above_sink hbelow hsafe.unshadowed, ← layer_cut]
    · exact absurd hnew.lists.holds.fits (hbig merged hnew.lists.holds.ascending hnew.answers)

variable (nowMs) in
/-- If the merge can be written, every number of merged entries is gone at some stop. -/
theorem stop_removing (hr : t.Readable) (hfresh : ¬t.Listed (compactedPath storagePath timeNs))
    (hwritable : ¬Unwritable t)
    {done rest : List SSTableMeta} (hne : levelOrder t.manifest 0 ≠ [])
    (hsplit : levelOrder t.manifest 0 = done ++ rest) :
    ∃ t' metadata merged, Stop storagePath timeNs nowMs t t' ∧
      Tracks t t' (levelOrder t.manifest 0) [metadata] done [compactedPath storagePath timeNs] ∧
      NewTable (compactedPath storagePath timeNs) nowMs t t' (levelOrder t.manifest 0) metadata
        merged := by
  have hinputs : ∀ m ∈ levelOrder t.manifest 0, SSTableManager.Readable t.files m :=
    fun m hm => hr m (mem_readOrder_of_levelOrder hm)
  obtain ⟨merged, hmerge, hasc, hassoc⟩ := mergeSstables_eq hinputs
  have hfits : SSTable.Fits merged := by
    simp only [Unwritable, not_forall, not_not] at hwritable
    obtain ⟨pairs, hpairs, hanswers, hfits⟩ := hwritable
    rwa [hasc.ext hpairs fun k => by rw [hassoc, hanswers]; rfl]
  -- the run gets as far as the saved entry, and from there to any number of removals
  obtain ⟨index, -, hbytes⟩ := SSTable.tableBytes_of_fits hasc.nodup hfits
  obtain ⟨written, newSstable, hwrite⟩ : ∃ written newSstable,
      t.write (.init (compactedPath storagePath timeNs) 1) merged = (written, .ok newSstable) := by
    rw [Tables.write, SSTable.write, hbytes]
    exact ⟨_, _, rfl⟩
  obtain ⟨metadata, hbuild, -⟩ :=
    Tables.write_spec hasc (merged_ne_nil hne hinputs hassoc) hwrite nowMs
  have hsteps := steps_recorded storagePath timeNs nowMs hne hmerge hwrite hbuild
  have hremoved := steps_removing storagePath timeNs nowMs (written.addSstable 1 metadata)
    (levelOrder t.manifest 0) done rest
  rw [← hsplit] at hremoved
  have hrun := hsteps.trans hremoved
  rcases pcInv_steps hr hfresh hrun with heq | ⟨-, -, metadata', merged', done', hsplit', h, hnew⟩
  · cases (Prod.mk.inj heq).2
  · obtain rfl : done' = done := List.append_cancel_right (hsplit'.symm.trans hsplit)
    exact ⟨_, metadata', merged', .between hrun trivial, h, hnew⟩

/-- If no stop is seen, the first merged tables agree, one after the other. -/
theorem agree_of_unseen {level0 : List SSTableMeta} {x : Layer Bytes Bytes}
    (h : ∀ done rest, level0 = done ++ rest →
      ∃ y, above (stack t.files (level0.filter fun m => decide (m.path ∉ done.map SSTableMeta.path))) y =
        above (stack t.files level0) x)
    (done rest : List SSTableMeta) (hsplit : level0 = done ++ rest) :
    ∀ m ∈ done, Below (tableLayer t.files m) (stack t.files level0) := by
  -- by induction on the entries gone: what the stop after `done` shows speaks about the next one
  induction done using List.reverseRecOn generalizing rest with
  | nil => exact fun m hm => nomatch hm
  | append_singleton done e ih =>
    rw [List.append_assoc, List.singleton_append] at hsplit
    have hdone := ih (e :: rest) hsplit
    intro m hm
    rcases List.mem_append.mp hm with hm | hm
    · exact hdone m hm
    · obtain rfl := List.mem_singleton.mp hm
      by_cases hpath : m.path ∈ done.map SSTableMeta.path
      · -- the same file was listed among the earlier ones
        obtain ⟨d, hd, heq⟩ := List.mem_map.mp hpath
        rw [← tableLayer_of_path heq]
        exact hdone d hd
      · obtain ⟨y, hy⟩ := h done (m :: rest) hsplit
        have hleft : level0.filter (fun m => decide (m.path ∉ done.map SSTableMeta.path)) =
            m :: rest.filter (fun m => decide (m.path ∉ done.map SSTableMeta.path)) := by
          have hgone : done.filter (fun m => decide (m.path ∉ done.map SSTableMeta.path)) = [] := by
            refine List.filter_eq_nil_iff.mpr ?_
            intro d hd
            rw [decide_eq_true_eq]
            exact fun hnot => hnot (List.mem_map_of_mem hd)
          rw [hsplit, List.filter_append, hgone, List.nil_append, List.filter_cons,
            if_pos (decide_eq_true hpath)]
        rw [hleft, stack_cons, above_assoc] at hy
        intro k w hk
        have hfirst := congrFun hy k
        rw [above_of_some hk] at hfirst
        cases hstack : stack t.files level0 k with
        | none =>
          have := resolve_eq_none_iff.mp hstack (tableLayer t.files m)
            (List.mem_map_of_mem (hsplit ▸ List.mem_append_right _ List.mem_cons_self))
          rw [this] at hk
          cases hk
        | some v => rw [hfirst, above_of_some hstack]

/-- **When a compaction may stop anywhere**: no stop changes an answer, in memory or
after the manifest was read again, exactly if it is safe to stop, or the merge cannot
be written. -/
theorem stops_unseen_iff (hr : t.Readable) (hfresh : ¬t.Listed (compactedPath storagePath timeNs))
    (hsaved : t.reload.manifest.levels = t.manifest.levels) :
    (∀ t', Stop storagePath timeNs nowMs t t' →
        ∀ key, t'.get key = t.get key ∧ t'.reload.get key = t.get key) ↔
      SafeToStop storagePath timeNs nowMs t ∨ Unwritable t := by
  constructor
  · intro hunseen
    by_cases hwritable : Unwritable t
    · exact .inr hwritable
    left
    by_cases hne : levelOrder t.manifest 0 = []
    · refine ⟨by simp [hne], ?_⟩
      rw [hne]
      exact empty_below _
    let stamp := toLex (nowMs, compactedPath storagePath timeNs)
    -- what the stops between two removals show, as an equation between stacks
    have hanswers : ∀ done rest, levelOrder t.manifest 0 = done ++ rest →
        above (stack t.files ((levelOrder t.manifest 0).filter fun m =>
            decide (m.path ∉ done.map SSTableMeta.path)))
          (above (stack t.files (ahead t stamp)) (above (stack t.files (levelOrder t.manifest 0))
            (above (stack t.files (behind t stamp)) (stack t.files (deeperOrder t.manifest))))) =
        above (stack t.files (levelOrder t.manifest 0))
          (above (stack t.files (ahead t stamp)) (above (stack t.files (behind t stamp))
            (stack t.files (deeperOrder t.manifest)))) := by
      intro done rest hsplit
      obtain ⟨t', metadata, merged, hstop, h, hnew⟩ :=
        stop_removing nowMs hr hfresh hwritable hne hsplit
      have hreadable : t'.Readable := readable_of_tracks h hnew hr fun m _ hm hmem =>
        hfresh ⟨m, hm, List.mem_singleton.mp hmem⟩
      rw [← layer_of_shown hfresh h hnew, ← layer_cut]
      funext key
      have := (hunseen t' hstop key).1
      rw [Tables.get_eq hreadable, Tables.get_eq hr] at this
      exact Except.ok.inj this
    have hagree := agree_of_unseen (fun done rest hsplit => ⟨_, hanswers done rest hsplit⟩)
      (levelOrder t.manifest 0) [] (List.append_nil _).symm
    refine ⟨hagree, below_of_above_eq (x := above (stack t.files (behind t stamp))
      (stack t.files (deeperOrder t.manifest))) ?_⟩
    -- the stop after the last removal
    have hlast := hanswers (levelOrder t.manifest 0) [] (List.append_nil _).symm
    have hgone : ((levelOrder t.manifest 0).filter fun m =>
        decide (m.path ∉ (levelOrder t.manifest 0).map SSTableMeta.path)) = [] := by
      refine List.filter_eq_nil_iff.mpr ?_
      intro m hm
      rw [decide_eq_true_eq]
      exact fun hnot => hnot (List.mem_map_of_mem hm)
    rw [hgone] at hlast
    exact hlast
  · intro hsafe t' hstop key
    obtain ⟨hmemory, hfile⟩ := shows_of_stop hr hfresh hsaved hstop
    exact ⟨get_of_shows hr hfresh hsafe hmemory key, get_of_shows hr hfresh hsafe hfile key⟩

end Runs

/-- A compaction may stop after seven steps, when it has removed the first entry. -/
theorem stop_twoTables :
    Stop "db" 7 7 twoTables ((fun s => next "db" 7 7 s.1 s.2)^[7] (twoTables, .idle)).1 := by
  have hsteps : Steps "db" 7 7 (twoTables, .idle)
      ((fun s => next "db" 7 7 s.1 s.2)^[7] (twoTables, .idle)) := steps_iterate "db" 7 7 _ 7
  have hpc : ((fun s => next "db" 7 7 s.1 s.2)^[7] (twoTables, .idle)).2.Updating := trivial
  exact .between hsteps hpc

/-- Two tables of level 0 of which the newer one is gone: the older value is back. -/
theorem stops_seen :
    ¬ ∀ (storagePath : Path) (timeNs nowMs : Nat) (t : Tables), t.Readable → Newer t nowMs →
      ¬t.Listed (compactedPath storagePath timeNs) →
      ((readOrder t.manifest).map SSTableMeta.path).Nodup →
      t.reload.manifest.levels = t.manifest.levels →
      ∀ t', Stop storagePath timeNs nowMs t t' →
        ∀ key, t'.get key = t.get key ∧ t'.reload.get key = t.get key := by
  intro h
  have hsame := (h "db" 7 7 twoTables readable_twoTables (by decide +kernel) (by decide +kernel)
    (by decide +kernel) rfl _ stop_twoTables [97]).1
  revert hsame
  decide +kernel

/-- What a stop there shows tells that it is not safe. -/
theorem stops_unseen_iff_twoTables : ¬(SafeToStop "db" 7 7 twoTables ∨ Unwritable twoTables) := by
  intro hsafe
  have hsame := ((stops_unseen_iff readable_twoTables (by decide +kernel) rfl).mpr hsafe _ stop_twoTables [97]).1
  revert hsame
  decide +kernel

end CompactionManager

end Logvine
