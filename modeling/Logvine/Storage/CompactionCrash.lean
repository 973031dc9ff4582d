import Logvine.Storage.CompactionStops
import Logvine.Storage.WithoutCompaction

/-!
# Restarting within a compaction

What another engine finds in the manifest file when a run of `compact` stops between two of its
steps.

- `OnDisk`: what the file lists at each point of the run, one change behind memory at most;
- `Torn`: the file lists the new table and some of the merged ones, but not all;
- `settled_reload`: at every other point the tables listed answer as before the run.

`add_sstable` and `remove_sstable` change the levels first and save them afterwards, under
one lock (`manifest.py`, 72–75 and 85–91); the file is replaced by a rename, so it never
shows half a change.
-/

namespace Logvine

open Layer SSTableManager

namespace CompactionManager

/-- What the manifest file lists at each point of a run that merges `level0`: the change that
is not saved yet is not in it. -/
def OnDisk (newPath : Path) (nowMs : Nat) (without t : Tables) (level0 : List SSTableMeta) : CompactPc → Prop
  | .added _ => Tracks without t.reload level0 [] [] [newPath]
  | .removed _ rest => ∃ info metadata merged done, level0 = done ++ info :: rest ∧
      Tracks without t.reload level0 [metadata] done [newPath] ∧
      NewTable newPath nowMs without t.reload level0 metadata merged
  | _ => t.reload.manifest.levels = t.manifest.levels

/-- In the file some of the merged entries are removed, and some are not. -/
def Torn : CompactPc → Prop
  | .removing level0 rest => rest ≠ [] ∧ rest ≠ level0
  | .removed level0 rest => rest.length + 1 ≠ level0.length
  | _ => False

instance : (pc : CompactPc) → Decidable (Torn pc)
  | .removing level0 rest => inferInstanceAs (Decidable (rest ≠ [] ∧ rest ≠ level0))
  | .removed level0 rest => inferInstanceAs (Decidable (rest.length + 1 ≠ level0.length))
  | .idle | .merging _ | .written _ _ | .described _ _ | .added _ | .unlinking _ | .returned | .raised _ =>
    .isFalse id

section Runs

variable {storagePath : Path} {timeNs nowMs : Nat} {without t : Tables} {level0 : List SSTableMeta} {pc : CompactPc}

/-- The file follows memory. -/
theorem onDisk_next (h : OnDisk (compactedPath storagePath timeNs) nowMs without t level0 pc)
    (hpc : PcInv (compactedPath storagePath timeNs) nowMs without t level0 pc) :
    OnDisk (compactedPath storagePath timeNs) nowMs without (next storagePath timeNs nowMs t pc).1 level0
      (next storagePath timeNs nowMs t pc).2 := by
  cases pc with
  | idle =>
    rw [next]
    split <;> exact h
  | merging infos =>
    obtain ⟨content, hfst, ⟨newSstable, hsnd⟩ | ⟨err, hsnd⟩⟩ :=
      next_merging storagePath timeNs nowMs t infos <;>
    · rw [hfst, hsnd]
      exact h
  | written infos newSstable =>
    rw [next]
    split <;> exact h
  | described infos metadata =>
    obtain ⟨-, merged, htracks, -⟩ := hpc
    have hlevels : t.reload.manifest.levels = t.manifest.levels := h
    exact htracks.congr hlevels rfl
  | removing infos rest =>
    cases rest with
    | nil => exact h
    | cons info rest =>
      obtain ⟨rfl, metadata, merged, done, hsplit, htracks, hnew⟩ := hpc
      have hlevels : t.reload.manifest.levels = t.manifest.levels := h
      exact ⟨info, metadata, merged, done, hsplit, htracks.congr hlevels rfl, hnew.merges, hnew.lists,
        hnew.answers, hnew.path, hnew.created⟩
  -- a saving brings the file up to date
  | added infos | removed infos rest => exact rfl
  | unlinking rest => cases rest <;> exact h
  | returned | raised err => exact h

/-- Every point of a run that has started. -/
theorem onDisk_steps (hr : t.Readable) (hfresh : ¬t.Listed (compactedPath storagePath timeNs))
    (hsaved : t.reload.manifest.levels = t.manifest.levels) {s : Tables × CompactPc}
    (h : Steps storagePath timeNs nowMs (t, .idle) s) :
    OnDisk (compactedPath storagePath timeNs) nowMs t s.1 (levelOrder t.manifest 0) s.2 := by
  induction h with
  | refl => exact hsaved
  | @tail r s hsteps hstep ih =>
    obtain rfl : next storagePath timeNs nowMs r.1 r.2 = s := hstep
    rcases pcInv_steps hr hfresh hsteps with rfl | ⟨-, hpc⟩
    · show OnDisk _ _ _ (next storagePath timeNs nowMs t .idle).1 _ (next storagePath timeNs nowMs t .idle).2
      rw [next]
      split <;> exact hsaved
    · exact onDisk_next ih hpc

/-- Manifests with the same levels are settled alike. -/
theorem Settled.congr {t' : Tables} (h : Settled without t) (hlevels : t'.manifest.levels = t.manifest.levels)
    (hfiles : t'.files = t.files) : Settled without t' := by
  obtain ⟨files, levels, version, saved⟩ := t
  obtain ⟨files', levels', version', saved'⟩ := t'
  obtain rfl : levels' = levels := hlevels
  obtain rfl : files' = files := hfiles
  exact ⟨h.readable, h.distinct, h.layer, h.level0⟩

/-- **Outside of the removal** the next engine finds tables that answer as before the run. -/
theorem settled_reload (h : OnDisk (compactedPath storagePath timeNs) nowMs without t level0 pc)
    (hpc : PcInv (compactedPath storagePath timeNs) nowMs without t level0 pc) (hr : without.Readable)
    (hfresh : ¬without.Listed (compactedPath storagePath timeNs))
    (hdistinct : ((readOrder without.manifest).map SSTableMeta.path).Nodup) (hnewer : Newer without nowMs)
    (htorn : ¬Torn pc) : Settled without t.reload := by
  have hlevel1 : ∀ m ∈ without.manifest.getLevelSstables 1, m.createdAtMs.getD 0 < nowMs :=
    fun m hm => hnewer m (mem_readOrder.mpr ⟨1, hm⟩)
  have hown : ∀ path ∈ [compactedPath storagePath timeNs], ¬without.Listed path :=
    fun path hpath => by rwa [List.mem_singleton.mp hpath]
  have hsame : t.reload.manifest.levels = t.manifest.levels → ¬Window pc → Settled without t.reload :=
    fun hlevels hwindow =>
      (settled_of_pcInv hpc hr hfresh hdistinct (fun _ _ => hlevel1) hwindow).congr hlevels rfl
  cases pc with
  | added infos => exact settled_unrecorded h hr hown hdistinct
  | removed infos rest =>
    obtain ⟨rfl, -⟩ := hpc
    obtain ⟨info, metadata, merged, done, hsplit, htracks, hnew⟩ := h
    -- only the first entry is gone, and the file still has it
    have hlength : rest.length + 1 = infos.length := not_not.mp htorn
    have hdone : done = [] := by
      have := congrArg List.length hsplit
      rw [List.length_append, List.length_cons] at this
      exact List.eq_nil_of_length_eq_zero (by omega)
    rw [hdone] at htracks
    refine settled_recorded htracks hnew hr hfresh hdistinct fun m hm => stamp_le_of_lt ?_
    rw [hnew.created]
    exact hlevel1 m hm
  | removing infos rest => exact hsame h htorn
  | idle | merging infos | written infos newSstable | described infos metadata | unlinking rest | returned
  | raised err => exact hsame h id

/-- At no point of a run of nothing the tables are others. -/
theorem steps_of_nothing (hnil : levelOrder t.manifest 0 = []) {s : Tables × CompactPc}
    (h : Steps storagePath timeNs nowMs (t, .idle) s) : s = (t, .idle) ∨ s = (t, .returned) := by
  induction h with
  | refl => exact .inl rfl
  | @tail r s _ hstep ih =>
    obtain rfl : next storagePath timeNs nowMs r.1 r.2 = s := hstep
    right
    rcases ih with rfl | rfl
    · show next storagePath timeNs nowMs t .idle = _
      rw [next, map_snd_iterSstableMetadata_level]
      exact if_pos hnil
    · rfl

end Runs

end CompactionManager

end Logvine
