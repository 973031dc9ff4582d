import Logvine.Storage.BackgroundWork

/-!
# Reads beside all of the engine's threads

A read scans the memtable, later looks at the manifest, and then opens the listed files one
after the other. In between writers, rotations, flushes and compactions go on.

- `latest`: what the writing sections of a run make of what was stored;
- `reads_latest`: as long as no compaction is removing entries, reads that are taken in one
  go show the latest applied writes;
- `Answers`: what a read answers if every key may have certain values;
- `read_between`: a read in steps that does not look at the manifest during such a removal,
  and loses none of the files listed there, answers every key as it was at some moment from
  the scan to the look at the manifest.

The removal of the merged entries is the one part of the background work that readers can
notice: `remove_sstable` takes them one by one, the newest first (`compaction.py`, 138–139),
so an older version of a key can come to the front for a while.
-/

namespace Logvine

open CompactionManager Layer LSMStorageEngine Runs
open Reading hiding collect

/-! ## What a read may answer -/

/-- The answer to a read, if every key may have these values. -/
def Reading.Query.Answers (current : Bytes → Option Bytes → Prop) : (q : Query) → Except Error q.Answer → Prop
  | .get key, answer => ∃ value, current key value ∧ answer = unlessDeleted key value
  | .range startKey endKey, answer => ∃ items, answer = .ok items ∧ Ascending items ∧
      (∀ item ∈ items, startKey ≤ item.1 ∧ item.1 < endKey) ∧
      ∀ key, startKey ≤ key → key < endKey → ∃ value, current key value ∧ assoc items key = live value

/-- A lookup on readable tables. -/
theorem Reading.get_view {t : Tables} (hr : t.Readable) (memtable : MemTable) (key : Bytes) :
    Reading.get memtable t key = unlessDeleted key (view memtable t key) := by
  rw [Reading.get, stored_eq hr]
  rfl

/-- Reads on readable tables answer the values of the view. -/
theorem Reading.Query.answers_answer {t : Tables} (hr : t.Readable) (memtable : MemTable) (q : Query)
    {current : Bytes → Option Bytes → Prop} (h : ∀ key, current key (view memtable t key)) :
    q.Answers current (q.answer memtable t) := by
  cases q with
  | get key => exact ⟨_, h key, Reading.get_view hr memtable key⟩
  | range startKey endKey =>
    obtain ⟨items, hread, hasc, hspec⟩ := readKeyRange_spec hr memtable startKey endKey
    refine ⟨items, hread, hasc, fun item hitem => ?_, fun key hstart hend => ⟨_, h key, ?_⟩⟩
    · have hfound := (assoc_of_mem hasc.nodup hitem).symm.trans (hspec item.1)
      by_contra hnot
      rw [inRange, if_neg hnot] at hfound
      cases hfound
    · rw [hspec, inRange, if_pos ⟨hstart, hend⟩]

namespace Workers

variable {L : Type} [Log L]

/-! ## Runs -/

section Runs

variable {c : Workers L} {g : Ghost} {works : List (Work L)}

/-- The latest applied state of every key: what the writing sections of a run make of `f`. -/
def latest : Workers L → Layer Bytes Bytes → List (Work L) → Layer Bytes Bytes
  | _, f, [] => f
  | c, f, work :: works => latest (c.act work) ((c.event work).over f) works

/-- The comparisons along a run, and what is still to come after it. -/
structure Traced (c : Workers L) (g : Ghost) (works : List (Work L)) (paths : List (Bool × Path)) (readings : List Nat)
    (ghosts : Nat → Ghost) : Prop where
  start : ghosts 0 = g
  shadow : ∀ n ≤ works.length, Shadow (run act c (works.take n)) (ghosts n)
  step : ∀ n < works.length, ∃ event, LayeredStore.Step (shadowStore (run act c (works.take n)) (ghosts n)) event
    (shadowStore (run act c (works.take (n + 1))) (ghosts (n + 1)))
  view : ∀ n ≤ works.length, (shadowStore (run act c (works.take n)) (ghosts n)).view =
    latest c (shadowStore c g).view (works.take n)
  awaits : Awaits (run act c works) (ghosts works.length) paths readings

theorem traced_run {paths : List (Bool × Path)} {readings : List Nat} (h : Shadow c g)
    (hawaits : Awaits c g (collect act names c works ++ paths) (collect act created c works ++ readings))
    (hpaths : (collect act names c works ++ paths).Pairwise Later)
    (hreadings : (collect act created c works ++ readings).Pairwise (· < ·)) (hsteady : Along act Steady c works) :
    ∃ ghosts, Traced c g works paths readings ghosts := by
  induction works generalizing c g with
  | nil =>
    refine ⟨fun _ => g, rfl, fun n _ => ?_, fun n hn => absurd hn (Nat.not_lt_zero n), fun n _ => ?_, hawaits⟩
    · rw [List.take_nil]
      exact h
    · rw [List.take_nil]
      rfl
  | cons work works ih =>
    rw [collect, List.append_assoc] at hpaths hreadings
    rw [collect, collect, List.append_assoc, List.append_assoc] at hawaits
    obtain ⟨g', hstepped⟩ := stepped_act h hawaits hpaths hreadings hsteady.1
    obtain ⟨ghosts, htraced⟩ := ih hstepped.shadow hstepped.awaits (List.pairwise_append.mp hpaths).2.1
      (List.pairwise_append.mp hreadings).2.1 hsteady.2
    refine ⟨fun n => Nat.casesOn (motive := fun _ => Ghost) n g ghosts, rfl, ?_, ?_, ?_, htraced.awaits⟩
    · rintro (_ | n) hn
      · exact h
      · exact htraced.shadow n (Nat.le_of_succ_le_succ hn)
    · rintro (_ | n) hn
      · refine ⟨c.event work, ?_⟩
        show LayeredStore.Step _ _ (shadowStore (c.act work) (ghosts 0))
        rw [htraced.start]
        exact hstepped.step
      · exact htraced.step n (Nat.lt_of_succ_lt_succ hn)
    · rintro (_ | n) hn
      · rfl
      · refine (htraced.view n (Nat.le_of_succ_le_succ hn)).trans ?_
        rw [List.take_succ_cons, latest]
        exact congrArg (latest (c.act work) · (works.take n)) (LayeredStore.view_step hstepped.step)

/-- What a read finds that scans the memtable after the steps `before`, and looks at the
manifest after the steps `between` as well. -/
structure Between (e : LSMStorageEngine L) (before between : List (Work L)) (later : List (Work L)) : Prop where
  sound : Sound (run act (opened e) (before ++ between)).config.engine
  unlisted : ∀ name ∈ collect act names (run act (opened e) (before ++ between)) later,
    ¬(run act (opened e) (before ++ between)).tables.Listed name.2
  current : ∀ key, ∃ seen, seen <+: between ∧
    Reading.view (run act (opened e) before).config.engine.memtable (run act (opened e) (before ++ between)).tables key =
      latest (opened e) (LSMStorageEngine.view e) (before ++ seen) key

theorem between_opened {e : LSMStorageEngine L} (h : Sound e) {before between later : List (Work L)}
    (hclock : Clocked (opened e) (before ++ between ++ later))
    (hsteady : Along act Steady (opened e) (before ++ between))
    (hwindow : ¬Window (run act (opened e) (before ++ between)).compaction) : Between e before between later := by
  obtain ⟨hdistinct, hunused, hincreasing, hlater⟩ := hclock
  rw [collect_append] at hdistinct hunused hincreasing hlater
  obtain ⟨g, hwithout, hshadow, hawaits⟩ := shadow_opened h hunused hlater
  obtain ⟨ghosts, htraced⟩ := traced_run hshadow hawaits hdistinct hincreasing hsteady
  have hstart : (shadowStore (opened e) g).view = LSMStorageEngine.view e := by
    rw [shadowStore, hwithout]
    rfl
  have hend := htraced.shadow (before ++ between).length (Nat.le_refl _)
  rw [List.take_length] at hend
  have hsettled := hend.settled hwindow
  refine ⟨⟨hsettled.readable, hsettled.distinct⟩, htraced.awaits.not_listed hend, fun key => ?_⟩
  have htake : ∀ n, (before ++ between).take (before.length + n) = before ++ between.take n := List.take_length_add_append
  have hlength : (before ++ between).length = before.length + between.length := List.length_append
  -- the states from the scan of the memtable on, without the compaction under way
  let t : Nat → LayeredStore Bytes Bytes := fun n =>
    shadowStore (run act (opened e) (before ++ between.take n)) (ghosts (before.length + n))
  have htrace : LayeredStore.Trace t between.length := by
    intro n hn
    have hstep := htraced.step (before.length + n) (by omega)
    rwa [htake, Nat.add_assoc, htake] at hstep
  obtain ⟨n, hn, hcurrent⟩ := LayeredStore.lookup_linearizes htrace key
  refine ⟨between.take n, List.take_prefix n between, ?_⟩
  have hview := htraced.view (before.length + n) (by omega)
  rw [htake, hstart] at hview
  have hmemory : (t 0).memory = (run act (opened e) before).config.engine.memtable.layer := by
    show (shadowStore (run act (opened e) (before ++ [])) _).memory = _
    rw [List.append_nil]
    rfl
  have htables : (t between.length).tables = (run act (opened e) (before ++ between)).tables.layer := by
    show (shadowStore (run act (opened e) (before ++ between.take between.length)) _).tables = _
    rw [List.take_length, ← hlength]
    exact hsettled.layer.symm
  rw [hmemory, htables] at hcurrent
  rw [← hview]
  exact hcurrent.symm

/-- **Reads show the latest applied writes** after any steps of writers, rotations, flushes
and compactions, unless a compaction is removing the entries it has merged. -/
theorem reads_latest {e : LSMStorageEngine L} (h : Sound e) (works : List (Work L)) (hclock : Clocked (opened e) works)
    (hsteady : Along act Steady (opened e) works) (hwindow : ¬Window (run act (opened e) works).compaction) :
    (∀ key, (run act (opened e) works).config.engine.get key =
        Reading.unlessDeleted key (latest (opened e) (LSMStorageEngine.view e) works key)) ∧
      ∀ startKey endKey, ∃ items, (run act (opened e) works).config.engine.readKeyRange startKey endKey = .ok items ∧
        Ascending items ∧ ∀ key value, (key, value) ∈ items ↔ startKey ≤ key ∧ key < endKey ∧
          Reading.live (latest (opened e) (LSMStorageEngine.view e) works key) = some value := by
  have hworks : works ++ [] = works := List.append_nil works
  rw [← hworks] at hsteady hwindow
  have hbetween : Between e works [] [] := between_opened h (by rwa [hworks, hworks]) hsteady hwindow
  have hsound := hbetween.sound
  rw [hworks] at hsound
  have hlatest : ∀ key, LSMStorageEngine.view (run act (opened e) works).config.engine key =
      latest (opened e) (LSMStorageEngine.view e) works key := by
    intro key
    obtain ⟨seen, hseen, hcurrent⟩ := hbetween.current key
    rw [List.prefix_nil.mp hseen, hworks] at hcurrent
    exact hcurrent
  refine ⟨fun key => ?_, fun startKey endKey => ?_⟩
  · rw [← hlatest]
    exact Reading.get_view hsound.readable _ key
  · obtain ⟨items, hread, hasc, hitems⟩ := readKeyRange_of_sound hsound startKey endKey
    refine ⟨items, hread, hasc, fun key value => ?_⟩
    rw [hitems, get_of_sound hsound, hlatest]

/-! ## Reads in steps -/

/-- A step of some thread, or of a reader that opens table files. -/
inductive Move (L : Type) where
  | act (work : Work L)
  | read

/-- What it does. -/
def move {α : Type} (s : Workers L × Reads Path (Option Bytes) α) : Move L → Workers L × Reads Path (Option Bytes) α
  | .act work => (s.1.act work, s.2)
  | .read => (s.1, s.2.step s.1.tables.files)

/-- The steps of the threads among these. -/
def moved (moves : List (Move L)) : List (Work L) :=
  moves.filterMap fun
    | .act work => some work
    | .read => none

/-- The files a step unlinks. -/
def unlinked (c : Workers L) : Work L → List Path
  | .compact _ _ =>
    match c.compaction with
    | .unlinking (info :: _) => [info.path]
    | _ => []
  | _ => []

/-- No listed file is unlinked. -/
def Spares (t : Tables) {α : Type} (s : Workers L × Reads Path (Option Bytes) α) : Move L → Prop
  | .act work => ∀ path ∈ unlinked s.1 work, ¬t.Listed path
  | .read => True

instance (t : Tables) {α : Type} (s : Workers L × Reads Path (Option Bytes) α) : (m : Move L) → Decidable (Spares t s m)
  | .act work => inferInstanceAs (Decidable (∀ path ∈ unlinked s.1 work, ¬t.Listed path))
  | .read => .isTrue trivial

/-- A flush changes only the file it writes. -/
theorem files_flush (nowMs : Nat) (e : LSMStorageEngine L) (pc : FlushPc) {path : Path}
    (hpath : ∀ items walOffset, pc = .writing items walOffset → sstablePath e.storagePath nowMs ≠ path) :
    (flushNext nowMs e pc).1.tables.files path = e.tables.files path := by
  cases pc with
  | idle =>
    rw [flushNext]
    split <;> rfl
  | writing items walOffset =>
    have hne := hpath items walOffset rfl
    obtain ⟨content, result, hwrite⟩ := write_eq (.init (sstablePath e.storagePath nowMs) 0) items
    rw [flushNext, hwrite]
    cases result <;> exact Function.update_of_ne hne.symm ..
  | written sstable walOffset =>
    rw [flushNext]
    split <;> rfl
  | collected | described | added | saved | recorded | cleared | returned | raised => rfl

/-- A step changes only files it writes or unlinks. -/
theorem files_act (c : Workers L) (work : Work L) {path : Path} (hnames : ∀ name ∈ names c work, name.2 ≠ path)
    (hunlinked : path ∉ unlinked c work) : (c.act work).tables.files path = c.tables.files path := by
  obtain ⟨⟨e, writers, flush⟩, compaction⟩ := c
  cases work with
  | thread a =>
    cases a with
    | flush nowMs =>
      have hflush : (flushNext nowMs e flush).1.tables.files path = e.tables.files path := by
        refine files_flush nowMs e flush ?_
        rintro items walOffset rfl
        exact hnames _ (List.mem_singleton_self _)
      cases flush with
      | returned | raised => rfl
      | idle | collected | writing | written | described | added | saved | recorded | cleared => exact hflush
    | raise nowMs content =>
      cases flush with
      | writing items walOffset => exact Function.update_of_ne (hnames _ (List.mem_singleton_self _)).symm ..
      | idle | collected | written | described | added | saved | recorded | cleared | returned | raised => rfl
    | write writer =>
      obtain ⟨memtable, wal, heq⟩ := Config.writeNext_same e (writers writer)
      exact congrArg (fun e => e.tables.files path) heq
    | rotate => rfl
    | put writer key value | delete writer key | batchPut writer keys values =>
      obtain ⟨wal, hwal⟩ := Config.begin_same e _
      rw [act, Config.act]
      split
      · rw [tables, Config.engine_wrote, hwal]
        rfl
      · rfl
  | flushPart nowMs content =>
    cases flush with
    | writing items walOffset => exact Function.update_of_ne (hnames _ (List.mem_singleton_self _)).symm ..
    | idle | collected | written | described | added | saved | recorded | cleared | returned | raised => rfl
  | compact timeNs nowMs =>
    cases compaction with
    | merging infos =>
      obtain ⟨content, hcontent, -⟩ := next_merging e.storagePath timeNs nowMs e.tables infos
      refine (congrArg (·.files path) hcontent).trans ?_
      exact Function.update_of_ne (hnames _ (List.mem_singleton_self _)).symm ..
    | unlinking rest =>
      cases rest with
      | nil => rfl
      | cons info rest => exact Function.update_of_ne (List.ne_of_not_mem_cons hunlinked) ..
    | idle =>
      show (next e.storagePath timeNs nowMs e.tables .idle).1.files path = _
      rw [next]
      split <;> rfl
    | written infos newSstable =>
      show (next e.storagePath timeNs nowMs e.tables (.written infos newSstable)).1.files path = _
      rw [next]
      split <;> rfl
    | removing infos rest => cases rest <;> rfl
    | described | added | removed | returned | raised => rfl
  | compactPart timeNs content | compactRaise timeNs content =>
    cases compaction with
    | merging infos => exact Function.update_of_ne (hnames _ (List.mem_singleton_self _)).symm ..
    | idle | written | described | added | removing | removed | unlinking | returned | raised => rfl
  | passOver =>
    cases compaction with
    | unlinking rest => cases rest <;> rfl
    | idle | merging | written | described | added | removing | removed | returned | raised => rfl
  | restart memtable wal => rfl

theorem read_moves {q : Query} {t : Tables} (s : Workers L × Reads Path (Option Bytes) (Except Error q.Answer))
    {moves : List (Move L)} (hnames : ∀ name ∈ collect act names s.1 (moved moves), ¬t.Listed name.2)
    (hspares : Along move (Spares t) s moves) (hfiles : ∀ path, t.Listed path → s.1.tables.files path = t.files path)
    (hreader : s.2.Robust t.files none t.Listed (HoldsNone t.files q.Asks)) :
    (run move s moves).2.run t.files = s.2.run t.files := by
  induction moves generalizing s with
  | nil => rfl
  | cons m moves ih =>
    rw [run_cons]
    cases m with
    | act work =>
      have hnow : ∀ name ∈ names s.1 work, ¬t.Listed name.2 := fun name hmem =>
        hnames name (List.mem_append_left _ hmem)
      refine ih (s.1.act work, s.2) (fun name hmem => hnames name (List.mem_append_right _ hmem)) hspares.2 ?_ hreader
      intro path hlisted
      refine (files_act s.1 work ?_ ?_).trans (hfiles path hlisted)
      · exact fun name hmem heq => hnow name hmem (heq ▸ hlisted)
      · exact fun hmem => hspares.1 path hmem hlisted
    | read =>
      -- a listed file is as it was when the manifest was looked at
      obtain ⟨hrobust, hresult⟩ := hreader.step s.1.tables.files fun path _ _ hpath => .inl (hfiles path hpath)
      exact (ih (s.1, s.2.step s.1.tables.files) hnames hspares.2 hfiles hrobust).trans hresult

/-- **Reads beside all threads.** A read scans the memtable after the steps `before`, looks
at the manifest after the steps `between` as well, and opens the listed files in between the
`moves`. It answers every key as it was after some of the steps `between`, unless a compaction
is removing entries when it looks at the manifest, or unlinks a file listed there. -/
theorem read_between {e : LSMStorageEngine L} (h : Sound e) (q : Query) (before between : List (Work L))
    (moves : List (Move L)) (hclock : Clocked (opened e) (before ++ between ++ moved moves))
    (hsteady : Along act Steady (opened e) (before ++ between))
    (hwindow : ¬Window (run act (opened e) (before ++ between)).compaction)
    (hspares : Along move (Spares (run act (opened e) (before ++ between)).tables)
      (run act (opened e) (before ++ between), (q.steps (run act (opened e) before).config.engine.memtable
        (run act (opened e) (before ++ between)).tables.manifest).run) moves)
    (answer : Except Error q.Answer)
    (hdone : (run move (run act (opened e) (before ++ between),
      (q.steps (run act (opened e) before).config.engine.memtable
        (run act (opened e) (before ++ between)).tables.manifest).run) moves).2.finished = some answer) :
    q.Answers (fun key value => ∃ seen, seen <+: between ∧
      value = latest (opened e) (LSMStorageEngine.view e) (before ++ seen) key) answer := by
  have hbetween := between_opened h hclock hsteady hwindow
  have hreadable := hbetween.sound.readable
  have hresult := read_moves (q := q) _ hbetween.unlisted hspares (fun _ _ => rfl)
    (robust_steps hreadable (run act (opened e) before).config.engine.memtable q)
  rw [Reads.run_of_finished hdone] at hresult
  have hanswer : answer = q.answer (run act (opened e) before).config.engine.memtable
      (run act (opened e) (before ++ between)).tables := hresult.trans (result_steps ..)
  rw [hanswer]
  exact q.answers_answer hreadable _ hbetween.current

end Runs

/-! ### A run that can be checked -/

/-- A value is put and flushed. -/
def putAndFlush (value : UInt8) (nameMs createdMs : Nat) : List (Work Wal) :=
  [.thread (.put 0 [97] [value]), .thread (.write 0), .thread .rotate, .thread (.flush 0), .thread (.flush 0),
    .flushPart nameMs (some [0]), .thread (.flush nameMs), .thread (.flush createdMs)] ++
  List.replicate 6 (.thread (.flush 0))

/-- Two flushes of the same key, and a compaction whose first attempt raises; another value
is put while it removes the merged entries. -/
def compactedTwice : List (Work Wal) :=
  [.compact 0 0, .compactPart 5 (some [0]), .compactRaise 5 none, .compact 0 0, .compact 0 0, .compact 5 0,
    .thread (.put 0 [98] [50]), .compact 0 6, .compact 0 0, .compact 0 0, .compact 0 0, .thread (.write 0),
    .compact 0 0, .compact 0 0, .compact 0 0, .compact 0 0, .compact 0 0]

/-- The value put last is read from the merged table, the other from the memtable. -/
theorem reads_latest_compactedTwice :
    let e := (run act (opened (LSMStorageEngine.fresh "db" 1000))
      (putAndFlush 49 1 2 ++ putAndFlush 51 3 4 ++ compactedTwice)).config.engine
    e.get [97] = .ok [51] ∧ e.get [98] = .ok [50] ∧ e.get [99] = .error (.keyError [99]) ∧
      ∃ items, e.readKeyRange [97] [98] = .ok items ∧ ([97], [51]) ∈ items ∧ ([98], [50]) ∉ items := by
  have h := reads_latest (sound_fresh "db" 1000) (putAndFlush 49 1 2 ++ putAndFlush 51 3 4 ++ compactedTwice)
    ⟨by decide +kernel, by decide +kernel, by decide +kernel, by decide +kernel⟩ (by decide +kernel)
    (by decide +kernel)
  obtain ⟨items, hread, -, hitems⟩ := h.2 [97] [98]
  refine ⟨(h.1 [97]).trans (by decide +kernel), (h.1 [98]).trans (by decide +kernel),
    (h.1 [99]).trans (by decide +kernel), items, hread, (hitems [97] [51]).mpr (by decide +kernel), fun hmem => ?_⟩
  exact absurd ((hitems [98] [50]).mp hmem).2.1 (by decide)

/-- A range read scans the memtable before the compaction, and looks at the manifest when the
merged entries have been removed. It opens the new table while the old ones are unlinked. -/
def unlinkedMeanwhile : List (Move Wal) :=
  [.act (.compact 0 0), .read, .act (.thread .rotate), .act (.compact 0 0), .read]

theorem read_between_compactedTwice :
    (Query.range [97] [99]).Answers (fun key value => ∃ seen, seen <+: compactedTwice ∧
      value = latest (opened (LSMStorageEngine.fresh "db" 1000)) (LSMStorageEngine.view (LSMStorageEngine.fresh "db" 1000))
        ((putAndFlush 49 1 2 ++ putAndFlush 51 3 4) ++ seen) key) (.ok [([97], [51])]) :=
  read_between (sound_fresh "db" 1000) (.range [97] [99]) (putAndFlush 49 1 2 ++ putAndFlush 51 3 4) compactedTwice
    unlinkedMeanwhile ⟨by decide +kernel, by decide +kernel, by decide +kernel, by decide +kernel⟩ (by decide +kernel)
    (by decide +kernel) (by decide +kernel) _ (by decide +kernel)

end Workers

end Logvine
