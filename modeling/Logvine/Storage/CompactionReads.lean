import Logvine.Storage.CompactionStops
import Logvine.Storage.ReadingSteps

/-!
# Reads while a compaction runs

One read of the engine and one run of `compact`, their steps in any order and
nobody writing. The read looks at the manifest once and then opens the listed
files one after the other, while the run removes entries and unlinks files.

- `MoveOk`: when a step of the read cannot go wrong. It may look at the manifest
  as long as the merged tables still listed answer like all of them for the keys
  that the memtable does not answer (`SnapshotOk`), and open a file as long as
  that is there or holds none of its keys;
- `read_during_compaction`: if all its steps are taken so, the read returns what
  it would have returned before the run;
- `read_during_compaction_fails`: a read that looked at the manifest before the
  run and opens the files after it misses a key.

A lookup gets the entries of the manifest from one snapshot (`sstable_manager.py`, 65) and
opens files as it goes. A file that is gone counts as a table without keys if its index is
still to be loaded (`sstable.py`, 87–90), which is how a key is missed, and raises if a
value is to be read (134).
-/

namespace Logvine

open Layer SSTableManager Reads Reading

namespace CompactionManager

/-- A run of `compact` and a read beside it, which may not have looked at the
manifest yet. -/
structure Beside (α : Type) where
  tables : Tables
  pc : CompactPc
  reader : Option (Reads Path (Option Bytes) (Except Error α))

/-- Who takes the next step. -/
inductive Move where
  | compact
  | read
deriving DecidableEq, Repr

namespace Beside

/-- Neither has begun. -/
def start (α : Type) (t : Tables) : Beside α := ⟨t, .idle, none⟩

/-- The result of the read, once it has one. -/
def finished {α : Type} (s : Beside α) : Option (Except Error α) :=
  match s.reader with
  | some (.done a) => some a
  | _ => none

/-- One step of the run or of the read. -/
def move (storagePath : Path) (timeNs nowMs : Nat) (memtable : MemTable) (q : Query)
    (s : Beside q.Answer) : Move → Beside q.Answer
  | .compact =>
    { s with
      tables := (next storagePath timeNs nowMs s.tables s.pc).1
      pc := (next storagePath timeNs nowMs s.tables s.pc).2 }
  | .read =>
    match s.reader with
    | none => { s with reader := some (q.steps memtable s.tables.manifest).run }
    | some r => { s with reader := some (r.step s.tables.files) }

/-- Any number of them. -/
def moves (storagePath : Path) (timeNs nowMs : Nat) (memtable : MemTable) (q : Query)
    (s : Beside q.Answer) (ms : List Move) : Beside q.Answer :=
  ms.foldl (move storagePath timeNs nowMs memtable q) s

end Beside

/-! ## When a read cannot go wrong -/

/-- With `remaining` of the tables to be merged still listed, the newest of these that
holds a key asked gives its newest merged value; if none of them holds it, no table of
level 1 consulted before the new one gives another value. -/
def SnapshotOk (t : Tables) (stamp : Nat ×ₗ String) (remaining : List SSTableMeta)
    (asks : Bytes → Prop) : Prop :=
  ∀ k, asks k → ∀ v, stack t.files (levelOrder t.manifest 0) k = some v →
    (∀ w, stack t.files remaining k = some w → w = v) ∧
      (stack t.files remaining k = none → ∀ w, stack t.files (ahead t stamp) k = some w → w = v)

/-- A step of the read beside a run on `t` goes well. -/
def MoveOk (storagePath : Path) (timeNs nowMs : Nat) (memtable : MemTable) (t : Tables) (q : Query)
    (s : Beside q.Answer) : Move → Prop
  | .compact => True
  | .read =>
    match s.reader with
    | none => SnapshotOk t (toLex (nowMs, compactedPath storagePath timeNs))
        (levelOrder s.tables.manifest 0) (q.AsksTables memtable)
    | some (.done _) => True
    | some (.opening path _) => s.tables.files path ≠ none ∨ HoldsNone t.files q.Asks path

/-- Every step of the read does. -/
def MovesOk (storagePath : Path) (timeNs nowMs : Nat) (memtable : MemTable) (t : Tables) (q : Query) :
    Beside q.Answer → List Move → Prop
  | _, [] => True
  | s, m :: ms => MoveOk storagePath timeNs nowMs memtable t q s m ∧
      MovesOk storagePath timeNs nowMs memtable t q
        (s.move storagePath timeNs nowMs memtable q m) ms

/-- Looking at the manifest before anything is removed is fine. -/
theorem snapshotOk_all (t : Tables) (stamp : Nat ×ₗ String) (asks : Bytes → Prop) :
    SnapshotOk t stamp (levelOrder t.manifest 0) asks := by
  intro k _ v hv
  refine ⟨fun w hw => Option.some.inj (hw.symm.trans hv), ?_⟩
  intro hnone
  rw [hv] at hnone
  cases hnone

/-- Whether the file the read opens next is there. -/
def Beside.there {α : Type} (s : Beside α) : Bool :=
  match s.reader with
  | none => false
  | some (.done _) => true
  | some (.opening path _) => (s.tables.files path).isSome

/-- Opening a file that is there is fine. -/
theorem moveOk_of_there {storagePath : Path} {timeNs nowMs : Nat} {memtable : MemTable} {t : Tables}
    {q : Query} {s : Beside q.Answer} (h : s.there = true) :
    MoveOk storagePath timeNs nowMs memtable t q s .read := by
  rw [Beside.there] at h
  rw [MoveOk]
  cases hreader : s.reader with
  | none =>
    rw [hreader] at h
    cases h
  | some r =>
    cases r with
    | done a => trivial
    | opening path next =>
      rw [hreader] at h
      exact .inl (Option.isSome_iff_ne_none.mp h)

/-! ## What a snapshot answers -/

section Snapshot

variable {storagePath : Path} {timeNs nowMs : Nat} {t t' : Tables} {pc : CompactPc}

/-- The files of `t`, with the new table as it is in `t'`. -/
def overlaid (newPath : Path) (t t' : Tables) : Files := Function.update t.files newPath (t'.files newPath)

/-- With the merged files still there, each point of a run shows what was there or a
part of the update. -/
theorem shows_overlaid {newPath : Path} {level0 : List SSTableMeta}
    (h : PcInv newPath nowMs t t' level0 pc) :
    Shows newPath nowMs t ⟨overlaid newPath t t', t'.manifest⟩ level0 := by
  have htracks : ∀ {added removed : List SSTableMeta} {touched : List Path},
      Tracks t t' level0 added removed touched →
      Tracks t ⟨overlaid newPath t t', t'.manifest⟩ level0 added removed [newPath] := by
    intro added removed touched h
    refine ⟨h.atLevel0, h.atLevel1, h.deeper, h.order, ?_⟩
    intro path hp
    exact Function.update_of_ne (fun e => hp (List.mem_singleton.mpr e)) ..
  have hnew : ∀ {metadata : SSTableMeta} {merged : List (Bytes × Bytes)},
      NewTable newPath nowMs t t' level0 metadata merged →
      NewTable newPath nowMs t ⟨overlaid newPath t t', t'.manifest⟩ level0 metadata merged := by
    intro metadata merged h
    refine ⟨h.merges, h.lists.congr ?_, h.answers, h.path, h.created⟩
    rw [h.path]
    exact Function.update_self ..
  cases pc with
  | idle =>
    obtain ⟨rfl, h⟩ := h
    exact .inl (htracks h)
  | merging infos => exact .inl (htracks h.2.2)
  | written infos newSstable =>
    obtain ⟨_, _, _, _, h, _⟩ := h
    exact .inl (htracks h)
  | described infos metadata =>
    obtain ⟨_, _, h, _⟩ := h
    exact .inl (htracks h)
  | added infos =>
    obtain ⟨_, metadata, merged, h, hn⟩ := h
    exact .inr ⟨metadata, merged, [], level0, rfl, htracks h, hnew hn⟩
  | removing infos rest | removed infos rest =>
    obtain ⟨_, metadata, merged, done, hsplit, h, hn⟩ := h
    exact .inr ⟨metadata, merged, done, rest, hsplit, htracks h, hnew hn⟩
  | unlinking rest =>
    obtain ⟨metadata, merged, done, hsplit, h, hn⟩ := h
    exact .inr ⟨metadata, merged, level0, [], (List.append_nil _).symm, htracks h, hnew hn⟩
  | returned =>
    rcases h with ⟨rfl, h⟩ | ⟨metadata, merged, h, hn⟩
    · exact .inl (htracks h)
    · exact .inr ⟨metadata, merged, level0, [], (List.append_nil _).symm, htracks h, hnew hn⟩
  | raised e => exact .inl (htracks h)

/-- A good snapshot answers the keys asked as before the run. -/
theorem layer_of_snapshotOk (hfresh : ¬t.Listed (compactedPath storagePath timeNs))
    (h : Shows (compactedPath storagePath timeNs) nowMs t t' (levelOrder t.manifest 0))
    {asks : Bytes → Prop}
    (hok : SnapshotOk t (toLex (nowMs, compactedPath storagePath timeNs)) (levelOrder t'.manifest 0) asks)
    {k : Bytes} (hk : asks k) : t'.layer k = t.layer k := by
  rcases h with h | ⟨metadata, merged, done, rest, -, h, hnew⟩
  · rw [layer_of_tracks_nil h fun path hp => List.mem_singleton.mp hp ▸ hfresh]
  · rw [layer_of_shown hfresh h hnew, layer_cut t (toLex (nowMs, compactedPath storagePath timeNs)),
      ← levelOrder_zero h]
    cases hmerged : stack t.files (levelOrder t.manifest 0) k with
    | some v =>
      obtain ⟨hremaining, hahead⟩ := hok k hk v hmerged
      rw [above_of_some hmerged]
      -- answered by what is left of level 0, by a table in front of the new one, or by the new one
      cases hleft : stack t.files (levelOrder t'.manifest 0) k with
      | some w => rw [above_of_some hleft, hremaining w hleft]
      | none =>
        rw [above_of_none hleft]
        cases ha : stack t.files (ahead t (toLex (nowMs, compactedPath storagePath timeNs))) k with
        | some w => rw [above_of_some ha, hahead hleft w ha]
        | none => rw [above_of_none ha, above_of_some hmerged]
    | none =>
      have hleft : stack t.files (levelOrder t'.manifest 0) k = none := by
        refine resolve_eq_none_iff.mpr fun f hf => resolve_eq_none_iff.mp hmerged f ?_
        rw [levelOrder_zero h] at hf
        exact (List.filter_sublist.map _).subset hf
      rw [above_of_none hleft, above_of_none hmerged, above_apply, above_of_none hmerged, above_apply]
      rfl

end Snapshot

/-! ## The steps of the run, as the read sees them -/

section Files

variable {storagePath : Path} {timeNs nowMs : Nat} {t t' : Tables} {pc : CompactPc}

variable (nowMs) in
/-- Apart from the new file, a run leaves files alone or unlinks them. -/
theorem files_next (t : Tables) (pc : CompactPc) {path : Path}
    (hpath : path ≠ compactedPath storagePath timeNs) :
    (next storagePath timeNs nowMs t pc).1.files path = t.files path ∨
      (next storagePath timeNs nowMs t pc).1.files path = none := by
  cases pc with
  | idle =>
    rw [next]
    split <;> exact .inl rfl
  | merging infos =>
    obtain ⟨content, hfst, -⟩ := next_merging storagePath timeNs nowMs t infos
    rw [hfst]
    exact .inl (Function.update_of_ne hpath ..)
  | written infos newSstable =>
    rw [next]
    split <;> exact .inl rfl
  | removing infos rest => cases rest <;> exact .inl rfl
  | unlinking rest =>
    cases rest with
    | nil => exact .inl rfl
    | cons info rest =>
      by_cases hinfo : path = info.path
      · rw [hinfo]
        exact .inr (Function.update_self ..)
      · exact .inl (Function.update_of_ne hinfo ..)
  | described | added | removed | returned | raised => exact .inl rfl

/-- Once the new table is described, its file stays as it is. -/
theorem stamped_step {level0 : List SSTableMeta}
    (h : PcInv (compactedPath storagePath timeNs) nowMs t t' level0 pc)
    (hfresh : ¬t.Listed (compactedPath storagePath timeNs)) (hstamped : Stamped pc) :
    Stamped (next storagePath timeNs nowMs t' pc).2 ∧
      (next storagePath timeNs nowMs t' pc).1.files (compactedPath storagePath timeNs) =
        t'.files (compactedPath storagePath timeNs) := by
  cases pc with
  | removing infos rest => cases rest <;> exact ⟨trivial, rfl⟩
  | unlinking rest =>
    cases rest with
    | nil => exact ⟨trivial, rfl⟩
    | cons info rest =>
      refine ⟨trivial, Function.update_of_ne ?_ ..⟩
      intro e
      obtain ⟨metadata, merged, done, hsplit, h, -⟩ := h
      refine hfresh (e ▸ h.listed ?_)
      rw [hsplit]
      exact List.mem_append_right _ List.mem_cons_self
  | idle | merging | written | raised => exact hstamped.elim
  | described | added | removed | returned => exact ⟨trivial, rfl⟩

/-- The new table is listed only once it is described. -/
theorem stamped_of_listed {level0 : List SSTableMeta}
    (h : PcInv (compactedPath storagePath timeNs) nowMs t t' level0 pc)
    (hfresh : ¬t.Listed (compactedPath storagePath timeNs))
    (hlisted : t'.Listed (compactedPath storagePath timeNs)) : Stamped pc := by
  have hnot : ∀ {level0 : List SSTableMeta} {touched : List Path},
      ¬Tracks t t' level0 [] [] touched := fun h => by
    rw [Tables.Listed, readOrder_of_tracks_nil h] at hlisted
    exact hfresh hlisted
  cases pc with
  | idle => exact (hnot h.2).elim
  | merging infos => exact (hnot h.2.2).elim
  | written infos newSstable =>
    obtain ⟨_, _, _, _, h, _⟩ := h
    exact (hnot h).elim
  | raised e => exact (hnot h).elim
  | described | added | removing | removed | unlinking | returned => trivial

end Files

/-! ## The read beside the run -/

section Beside

variable {storagePath : Path} {timeNs nowMs : Nat} {memtable : MemTable} {t : Tables} {q : Query}

/-- What holds at every point of a run with a read beside it: the read, taken to its
end on the files as they were when it looked at the manifest, answers as before. -/
structure ReadInv (storagePath : Path) (timeNs nowMs : Nat) (memtable : MemTable) (t : Tables)
    (q : Query) (s : Beside q.Answer) : Prop where
  reached : Steps storagePath timeNs nowMs (t, .idle) (s.tables, s.pc)
  files : ∀ path, path ≠ compactedPath storagePath timeNs →
    s.tables.files path = t.files path ∨ s.tables.files path = none
  reader : ∀ r, s.reader = some r → ∃ (files : Files) (opens : Path → Prop),
    r.Robust files none opens (HoldsNone files q.Asks) ∧ r.run files = q.answer memtable t ∧
      (∀ path, path ≠ compactedPath storagePath timeNs → files path = t.files path) ∧
      (opens (compactedPath storagePath timeNs) → Stamped s.pc ∧
        s.tables.files (compactedPath storagePath timeNs) =
          files (compactedPath storagePath timeNs))

theorem readInv_start (t : Tables) :
    ReadInv storagePath timeNs nowMs memtable t q (.start q.Answer t) :=
  ⟨.refl, fun _ _ => .inl rfl, fun _ h => nomatch h⟩

/-- Looking at the manifest. -/
theorem readInv_snapshot (hr : t.Readable) (hfresh : ¬t.Listed (compactedPath storagePath timeNs))
    {s : Beside q.Answer} (h : ReadInv storagePath timeNs nowMs memtable t q s)
    (hok : SnapshotOk t (toLex (nowMs, compactedPath storagePath timeNs))
      (levelOrder s.tables.manifest 0) (q.AsksTables memtable)) :
    ReadInv storagePath timeNs nowMs memtable t q
      { s with reader := some (q.steps memtable s.tables.manifest).run } := by
  let files := overlaid (compactedPath storagePath timeNs) t s.tables
  have hshows : Shows (compactedPath storagePath timeNs) nowMs t ⟨files, s.tables.manifest⟩
      (levelOrder t.manifest 0) := by
    -- the run may not have begun when the manifest is looked at
    rcases pcInv_steps hr hfresh h.reached with heq | ⟨-, hpc⟩
    · obtain ⟨heq, -⟩ := Prod.mk.inj heq
      have hfiles : files = t.files := by
        show overlaid _ t s.tables = _
        rw [heq, overlaid, Function.update_eq_self]
      have hlevels : s.tables.manifest.levels = t.manifest.levels := by rw [heq]
      exact .inl (((tracks_self t).mono (List.nil_subset _)).congr hlevels hfiles)
    · exact shows_overlaid hpc
  have hreadable := readable_of_shows hr hfresh hshows
  refine ⟨h.reached, h.files, ?_⟩
  intro r hr'
  obtain rfl := Option.some.inj hr'
  refine ⟨files, _, robust_steps hreadable memtable q, ?_,
    fun path hpath => Function.update_of_ne hpath .., fun hlisted => ⟨?_, ?_⟩⟩
  · exact (result_steps files memtable s.tables.manifest q).trans (answer_congr hr hreadable memtable q
      fun k hk => layer_of_snapshotOk hfresh hshows hok hk)
  · rcases pcInv_steps hr hfresh h.reached with heq | ⟨-, hpc⟩
    · obtain ⟨heq, -⟩ := Prod.mk.inj heq
      exact absurd (heq ▸ hlisted : t.Listed _) hfresh
    · exact stamped_of_listed hpc hfresh hlisted
  · exact (Function.update_self (f := t.files) ..).symm

/-- **One step**: a step of the run, or one of the read that goes well. -/
theorem readInv_move (hr : t.Readable) (hfresh : ¬t.Listed (compactedPath storagePath timeNs))
    {s : Beside q.Answer} (h : ReadInv storagePath timeNs nowMs memtable t q s) (m : Move)
    (hok : MoveOk storagePath timeNs nowMs memtable t q s m) :
    ReadInv storagePath timeNs nowMs memtable t q
      (s.move storagePath timeNs nowMs memtable q m) := by
  cases m with
  | compact =>
    refine ⟨h.reached.tail rfl, ?_, ?_⟩
    · intro path hpath
      rcases files_next nowMs s.tables s.pc hpath with hsame | hnone
      · exact (h.files path hpath).imp hsame.trans hsame.trans
      · exact .inr hnone
    · intro r hr'
      obtain ⟨files, opens, hrobust, hrun, hsame, hnew⟩ := h.reader r hr'
      refine ⟨files, opens, hrobust, hrun, hsame, ?_⟩
      intro hopens
      obtain ⟨hstamped, hfile⟩ := hnew hopens
      rcases pcInv_steps hr hfresh h.reached with heq | ⟨-, hpc⟩
      · rw [show s.pc = .idle from (Prod.mk.inj heq).2] at hstamped
        exact hstamped.elim
      · obtain ⟨hstamped', hfile'⟩ := stamped_step hpc hfresh hstamped
        exact ⟨hstamped', hfile'.trans hfile⟩
  | read =>
    rw [Beside.move]
    cases hreader : s.reader with
    | none =>
      rw [MoveOk, hreader] at hok
      exact readInv_snapshot hr hfresh h hok
    | some r =>
      obtain ⟨files, opens, hrobust, hrun, hsame, hnew⟩ := h.reader r hreader
      have hstep := hrobust.step s.tables.files fun path next heq hopens => by
        -- the file of the new table stays as it was; any other one is as before or gone
        by_cases hpath : path = compactedPath storagePath timeNs
        · rw [hpath] at hopens ⊢
          exact .inl (hnew hopens).2
        · rcases h.files path hpath with hthere | hgone
          · exact .inl (hthere.trans (hsame path hpath).symm)
          · -- a missing file that the read does not need
            rw [MoveOk, hreader, heq] at hok
            refine .inr ⟨hgone, ?_⟩
            intro m hm k hk
            rw [tableLayer_congr (m := m) (hm ▸ hsame path hpath)]
            exact hok.resolve_left (fun hne => hne hgone) m hm k hk
      refine ⟨h.reached, h.files, ?_⟩
      intro r' hr'
      obtain rfl := Option.some.inj hr'
      exact ⟨files, opens, hstep.1, hstep.2.trans hrun, hsame, hnew⟩

theorem readInv_moves (hr : t.Readable) (hfresh : ¬t.Listed (compactedPath storagePath timeNs))
    {s : Beside q.Answer} (h : ReadInv storagePath timeNs nowMs memtable t q s) (ms : List Move)
    (hok : MovesOk storagePath timeNs nowMs memtable t q s ms) :
    ReadInv storagePath timeNs nowMs memtable t q
      (s.moves storagePath timeNs nowMs memtable q ms) := by
  induction ms generalizing s with
  | nil => exact h
  | cons m ms ih => exact ih (readInv_move hr hfresh h m hok.1) hok.2

/-- **Reads beside a compaction**: a read whose steps all go well returns what it
would have returned before the compaction began. -/
theorem read_during_compaction (hr : t.Readable)
    (hfresh : ¬t.Listed (compactedPath storagePath timeNs)) (ms : List Move)
    (hok : MovesOk storagePath timeNs nowMs memtable t q (.start q.Answer t) ms)
    {a : Except Error q.Answer}
    (hdone : ((Beside.start q.Answer t).moves storagePath timeNs nowMs memtable q ms).finished = some a) :
    a = q.answer memtable t := by
  have h := readInv_moves hr hfresh (readInv_start t) ms hok
  rw [Beside.finished] at hdone
  split at hdone
  · next a' hreader =>
    obtain rfl := Option.some.inj hdone
    obtain ⟨files, -, -, hrun, -⟩ := h.reader _ hreader
    exact hrun
  · cases hdone

end Beside

/-- A read that looked at the manifest before the compaction and opens the files after
it: they are gone, and the merged table is not on its list. -/
theorem read_during_compaction_fails :
    ¬ ∀ (storagePath : Path) (timeNs nowMs : Nat) (memtable : MemTable) (t : Tables) (q : Query)
      (ms : List Move) (a : Except Error q.Answer), t.Readable → Newer t nowMs →
      ¬t.Listed (compactedPath storagePath timeNs) →
      ((readOrder t.manifest).map SSTableMeta.path).Nodup →
      ((Beside.start q.Answer t).moves storagePath timeNs nowMs memtable q ms).finished = some a →
      a = q.answer memtable t := by
  intro h
  have hmissed := h "db" 7 7 (.init 1) twoTables (.get [97])
    (.read :: List.replicate 13 .compact ++ [.read, .read]) (.error (.keyError [97]))
    readable_twoTables (by decide +kernel) (by decide +kernel) (by decide +kernel) (by decide +kernel)
  revert hmissed
  decide +kernel

/-- A lookup that the memtable answers may look at the manifest at any time. -/
theorem moveOk_of_answered {storagePath : Path} {timeNs nowMs : Nat} {memtable : MemTable} {t : Tables}
    {key : Bytes} {s : Beside Bytes} (hreader : s.reader = none) (h : memtable.layer key ≠ none) :
    MoveOk storagePath timeNs nowMs memtable t (.get key) s .read := by
  rw [MoveOk, hreader]
  rintro _ ⟨rfl, hnone⟩
  exact absurd hnone h

/-- The tables are read between the steps of the compaction; a value of the memtable is found
while the merged entries are removed. -/
theorem read_during_compaction_twoTables :
    Except.ok [2] = Query.answer (.init 1) twoTables (.get [97]) ∧
      Except.ok [9] = Query.answer (MemTable.putUnlocked (.init 1) [97] [9]) twoTables (.get [97]) := by
  have hok : MovesOk "db" 7 7 (.init 1) twoTables (.get [97]) (.start _ twoTables)
      [.read, .compact, .read, .compact, .read] := by
    refine ⟨snapshotOk_all _ _ _, trivial, moveOk_of_there ?_, trivial, moveOk_of_there ?_, trivial⟩
    all_goals decide +kernel
  have hanswered : MovesOk "db" 7 7 (MemTable.putUnlocked (.init 1) [97] [9]) twoTables (.get [97]) (.start _ twoTables)
      (List.replicate 7 .compact ++ [.read]) := by
    refine ⟨trivial, trivial, trivial, trivial, trivial, trivial, trivial, moveOk_of_answered rfl ?_, trivial⟩
    decide
  exact ⟨read_during_compaction readable_twoTables (by decide +kernel) _ hok (by decide +kernel),
    read_during_compaction readable_twoTables (by decide +kernel) _ hanswered (by decide +kernel)⟩

end CompactionManager

end Logvine
