import Logvine.Base.AtomicSave
import Logvine.Base.Runs
import Logvine.Storage.Manifest

/-!
# The manifest and its file

`Manifest` with the steps of its saving, each of which may raise. In memory the levels
are numbers; in the document they are strings.

- `readDocument_serialized`: what is saved is loaded;
- `represents_addSstable`, `represents_removeSstable`, `represents_save`: without an
  exception up to the renaming a call is the one of `Logvine.Storage.Manifest`, with one
  it is the first half of it;
- `inSync_run_iff`: memory and file agree after every call of a run exactly if no
  `add_sstable` or `remove_sstable` raised before the file was replaced.

`save` and `_save_locked` have the same body (`manifest.py`, 50–62 and 95–107): serialise,
write a temporary file, synchronise, rename. `add_sstable` and `remove_sstable` change
memory before they call it (73–75, 86–91) and take nothing back when it raises. The keys
pass through `str` and `int` (95, 42–43).
-/

namespace Logvine

open AtomicSave Runs

/-- Numbers that name levels in memory, and their text in the document. -/
class LevelKey (κ : Type) where
  text : κ → String
  ofText : String → Option κ
  ofText_text : ∀ level, ofText (text level) = some level

/-- `str` and `int`, as far as the keys are such that `str` makes. -/
instance : LevelKey Int := ⟨Int.repr, String.toInt?, Int.toInt?_repr⟩

instance : LevelKey Nat := ⟨Nat.repr, String.toNat?, Nat.toNat?_repr⟩

/-- The document in the manifest file. -/
structure Document where
  version : Nat
  levels : Dict String (List SSTableMeta)

/-- A `Manifest` and the directory of its file. -/
structure ManifestFile (κ : Type) where
  levels : Dict κ (List SSTableMeta)
  version : Nat
  file : SavedFile Document

namespace ManifestFile

section Calls

variable {κ : Type} [DecidableEq κ] [LevelKey κ]

/-- The document of `Manifest._save_locked`. -/
def serialized (levels : Dict κ (List SSTableMeta)) (version : Nat) : Document :=
  ⟨version, Dict.empty.setAll (levels.entries.map fun item => (LevelKey.text item.1, item.2))⟩

/-- The loop of `Manifest.load` over the levels of the document. -/
def loadLevels (items : List (String × List SSTableMeta)) : Except Error (Dict κ (List SSTableMeta)) :=
  items.foldlM (fun levels item =>
    match LevelKey.ofText item.1 with
    | some level => .ok (levels.set level item.2)
    | none => .error (.valueError ("invalid literal for int() with base 10: '" ++ item.1 ++ "'"))) .empty

/-- The levels and the version `Manifest.load` reads. -/
def readDocument : Option Document → Except Error (Dict κ (List SSTableMeta) × Nat)
  | none => .ok (.empty, 0)
  | some document => do
    let levels ← loadLevels document.levels.entries
    return (levels, document.version)

/-- `Manifest.load` on a fresh object. -/
def load (file : SavedFile Document) : Except Error (ManifestFile κ) :=
  (readDocument file.document).map fun read => ⟨read.1, read.2, file⟩

/-- `Manifest.get_level_sstables`. -/
def getLevelSstables (m : ManifestFile κ) (level : κ) : List SSTableMeta := (m.levels.get? level).getD []

/-- `Manifest._save_locked` and `Manifest.save`, with the step that raises if one does. -/
def save (fault : Option Step) (m : ManifestFile κ) : ManifestFile κ × Bool :=
  let (file, raised) := AtomicSave.save fault (serialized m.levels m.version) m.file
  ({ m with file := file }, raised)

/-- `Manifest.add_sstable`. -/
def addSstable (fault : Option Step) (m : ManifestFile κ) (level : κ) (metadata : SSTableMeta) :
    ManifestFile κ × Bool :=
  save fault
    { m with
      levels := m.levels.set level (m.getLevelSstables level ++ [metadata])
      version := m.version + 1 }

/-- `Manifest.remove_sstable`. -/
def removeSstable (fault : Option Step) (m : ManifestFile κ) (level : κ) (sstablePath : Path) :
    ManifestFile κ × Bool :=
  save fault
    { m with
      levels := m.levels.set level
        ((m.getLevelSstables level).filter fun entry => decide (entry.path ≠ sstablePath))
      version := m.version + 1 }

/-! ## Saving and loading -/

omit [DecidableEq κ] in
theorem nodup_map_text {items : List (κ × List SSTableMeta)} (h : (items.map Prod.fst).Nodup) :
    ((items.map fun item => (LevelKey.text item.1, item.2)).map Prod.fst).Nodup := by
  have hinj : Function.Injective (LevelKey.text : κ → String) := by
    intro a b hab
    have := LevelKey.ofText_text a
    rw [hab, LevelKey.ofText_text] at this
    exact (Option.some.inj this).symm
  rw [List.map_map]
  have := h.map hinj
  rwa [List.map_map] at this

omit [DecidableEq κ] in
/-- `json.dump` writes the keys of the levels as text. -/
theorem entries_serialized (levels : Dict κ (List SSTableMeta)) (version : Nat) :
    (serialized levels version).levels.entries =
      levels.entries.map fun item => (LevelKey.text item.1, item.2) :=
  Dict.entries_setAll_of_nodup .empty (nodup_map_text levels.nodup) fun _ _ => List.not_mem_nil

/-- `load` reads those keys back with `int`, and sets the levels one by one. -/
theorem foldlM_loadLevels (items : List (κ × List SSTableMeta)) (levels : Dict κ (List SSTableMeta)) :
    (items.map fun item => (LevelKey.text item.1, item.2)).foldlM (fun levels item =>
        match LevelKey.ofText item.1 with
        | some level => .ok (levels.set level item.2)
        | none => .error (.valueError ("invalid literal for int() with base 10: '" ++ item.1 ++ "'"))) levels =
      (.ok (levels.setAll items) : Except Error (Dict κ (List SSTableMeta))) := by
  induction items generalizing levels with
  | nil => rfl
  | cons item items ih =>
    rw [List.map_cons, List.foldlM_cons, LevelKey.ofText_text]
    exact ih (levels.set item.1 item.2)

/-- **What is saved is loaded**: the numbers of the levels come back from their texts. -/
theorem readDocument_serialized (levels : Dict κ (List SSTableMeta)) (version : Nat) :
    readDocument (some (serialized levels version)) = .ok (levels, version) := by
  have hlevels : loadLevels (serialized levels version).levels.entries = .ok levels := by
    rw [loadLevels, entries_serialized, foldlM_loadLevels]
    have hentries : (Dict.empty.setAll levels.entries).entries = levels.entries :=
      Dict.entries_setAll_of_nodup .empty levels.nodup fun _ _ => List.not_mem_nil
    rw [Dict.eq_of_entries hentries]
  rw [readDocument, hlevels]
  rfl

omit [DecidableEq κ] in
/-- What `save` leaves, with the step at which it raised: memory is kept, and the file is the old
one or the new. -/
theorem save_spec (fault : Option Step) (m : ManifestFile κ) :
    (save fault m).1.levels = m.levels ∧ (save fault m).1.version = m.version ∧
      (save fault m).1.file.document =
        if fault.any Step.leavesOld then m.file.document else some (serialized m.levels m.version) :=
  ⟨rfl, rfl, (AtomicSave.save_spec fault (serialized m.levels m.version) m.file).1⟩

end Calls

/-! ## Runs -/

section Runs

variable {κ : Type} [DecidableEq κ] [LevelKey κ]

/-- A call on a manifest. -/
inductive Call (κ : Type) where
  | addSstable (level : κ) (metadata : SSTableMeta)
  | removeSstable (level : κ) (sstablePath : Path)
  | save
deriving DecidableEq, Repr

/-- Make a call, with the step of its saving that raises if one does. -/
def Call.run (m : ManifestFile κ) : Call κ × Option Step → ManifestFile κ × Bool
  | (.addSstable level metadata, fault) => m.addSstable fault level metadata
  | (.removeSstable level sstablePath, fault) => m.removeSstable fault level sstablePath
  | (.save, fault) => m.save fault

/-- The manifest after a call, whether it returned or raised. -/
def afterCall (m : ManifestFile κ) (call : Call κ × Option Step) : ManifestFile κ := (Call.run m call).1

/-- A fresh object would read the levels and the version that are in memory; an empty
level is as good as none. -/
def InSync (m : ManifestFile κ) : Prop :=
  ∃ loaded : ManifestFile κ, load m.file = .ok loaded ∧
    (∀ level, m.getLevelSstables level = loaded.getLevelSstables level) ∧ m.version = loaded.version

/-- The call changes the manifest in memory and raises before the file is replaced. -/
def Lost (call : Call κ × Option Step) : Prop := call.1 ≠ .save ∧ call.2.any Step.leavesOld

omit [LevelKey κ] in
instance (call : Call κ × Option Step) : Decidable (Lost call) := inferInstanceAs (Decidable (_ ∧ _))

/-- The file holds what the memory answers. -/
theorem inSync_iff {m : ManifestFile κ} :
    InSync m ↔ ∃ levels version, readDocument m.file.document = .ok (levels, version) ∧
      (∀ level, m.getLevelSstables level = (levels.get? level).getD []) ∧ m.version = version := by
  constructor
  · rintro ⟨loaded, hload, hlevels, hversion⟩
    rw [load] at hload
    cases hread : (readDocument m.file.document : Except Error (Dict κ (List SSTableMeta) × Nat)) with
    | error err =>
      rw [hread] at hload
      cases hload
    | ok read =>
      rw [hread] at hload
      cases hload
      exact ⟨read.1, read.2, rfl, hlevels, hversion⟩
  · rintro ⟨levels, version, hread, hlevels, hversion⟩
    refine ⟨⟨levels, version, m.file⟩, ?_, hlevels, hversion⟩
    rw [load, hread]
    rfl

/-- A save that gets past the rename brings the file up to date. -/
theorem inSync_save (m : ManifestFile κ) {fault : Option Step} (h : ¬fault.any Step.leavesOld) :
    InSync (save fault m).1 := by
  obtain ⟨hlevels, hversion, hdocument⟩ := save_spec fault m
  rw [if_neg h] at hdocument
  refine inSync_iff.mpr ⟨m.levels, m.version, ?_, ?_, hversion⟩
  · rw [hdocument, readDocument_serialized]
  · intro level
    rw [getLevelSstables, hlevels]

/-- A saving that leaves the old file under an unchanged memory. -/
theorem inSync_save_of_old {m : ManifestFile κ} (h : InSync m) {fault : Option Step}
    (hfault : fault.any Step.leavesOld) : InSync (save fault m).1 := by
  obtain ⟨levels, version, hread, hlevels, hversion⟩ := inSync_iff.mp h
  obtain ⟨hsame, hsameVersion, hdocument⟩ := save_spec fault m
  rw [if_pos hfault] at hdocument
  refine inSync_iff.mpr ⟨levels, version, ?_, ?_, hsameVersion.trans hversion⟩
  · rw [hdocument, hread]
  · intro level
    rw [getLevelSstables, hsame]
    exact hlevels level

/-- One that leaves the old file under a memory that has gone on to another version. -/
theorem not_inSync_save {m : ManifestFile κ} (m' : ManifestFile κ) (h : InSync m) (hfile : m'.file = m.file)
    (hnew : m'.version = m.version + 1) {fault : Option Step} (hfault : fault.any Step.leavesOld) :
    ¬InSync (save fault m').1 := by
  intro hafter
  obtain ⟨levels, version, hread, -, hversion⟩ := inSync_iff.mp h
  obtain ⟨levels', version', hread', -, hversion'⟩ := inSync_iff.mp hafter
  obtain ⟨-, hkept, hdocument⟩ := save_spec fault m'
  rw [if_pos hfault, hfile] at hdocument
  rw [hdocument, hread] at hread'
  cases hread'
  omega

/-- One call from a file that is up to date: it stays so exactly when the call is not lost. -/
theorem inSync_afterCall_iff {m : ManifestFile κ} (h : InSync m) (call : Call κ × Option Step) :
    InSync (afterCall m call) ↔ ¬Lost call := by
  obtain ⟨call, fault⟩ := call
  by_cases hfault : fault.any Step.leavesOld = true
  · cases call with
    | save => exact iff_of_true (inSync_save_of_old h hfault) fun hlost => hlost.1 rfl
    | addSstable level metadata =>
      have hlost : Lost (Call.addSstable level metadata, fault) := ⟨by rintro ⟨⟩, hfault⟩
      refine iff_of_false ?_ (not_not.mpr hlost)
      exact not_inSync_save { m with
        levels := m.levels.set level (m.getLevelSstables level ++ [metadata])
        version := m.version + 1 } h rfl rfl hfault
    | removeSstable level sstablePath =>
      have hlost : Lost (Call.removeSstable level sstablePath, fault) := ⟨by rintro ⟨⟩, hfault⟩
      refine iff_of_false ?_ (not_not.mpr hlost)
      exact not_inSync_save { m with
        levels := m.levels.set level
          ((m.getLevelSstables level).filter fun entry => decide (entry.path ≠ sstablePath))
        version := m.version + 1 } h rfl rfl hfault
  · refine iff_of_true ?_ fun hlost => hfault hlost.2
    cases call with
    | save => exact inSync_save _ hfault
    | addSstable level metadata => exact inSync_save _ hfault
    | removeSstable level sstablePath => exact inSync_save _ hfault

/-- All calls of a run, by induction on them. -/
theorem inSync_calls_iff {m : ManifestFile κ} (h : InSync m) (calls : List (Call κ × Option Step)) :
    (∀ n, InSync (run afterCall m (calls.take n))) ↔ ∀ call ∈ calls, ¬Lost call := by
  induction calls generalizing m with
  | nil => simp [h]
  | cons call calls ih =>
    rw [List.forall_mem_cons]
    constructor
    · intro hall
      have hfirst : InSync (afterCall m call) := hall 1
      refine ⟨(inSync_afterCall_iff h call).mp hfirst, (ih hfirst).mp ?_⟩
      intro n
      exact hall (n + 1)
    · rintro ⟨hcall, hcalls⟩ n
      have hfirst := (inSync_afterCall_iff h call).mpr hcall
      cases n with
      | zero => exact h
      | succ n => exact (ih hfirst).mpr hcalls n

end Runs

/-- **When memory and file agree**: after every call of a run, whether it returned or
raised, exactly if no `add_sstable` and no `remove_sstable` of the run raised before the
file was replaced. -/
theorem inSync_run_iff (m : ManifestFile Int) (h : InSync m) (calls : List (Call Int × Option Step)) :
    (∀ n, InSync (run afterCall m (calls.take n))) ↔ ∀ call ∈ calls, ¬Lost call :=
  inSync_calls_iff h calls

/-! ## The manifest without its steps -/

/-- The same levels and version, in memory and in the file. -/
structure Represents (f : ManifestFile Nat) (m : Manifest) : Prop where
  levels : f.levels = m.levels
  version : f.version = m.version
  saved : f.file.document = m.saved.map fun saved => serialized saved.1 saved.2

/-- Saving in steps is the one-step save, or nothing for the file. -/
theorem represents_save {f : ManifestFile Nat} {m : Manifest} (h : Represents f m) (fault : Option Step) :
    Represents (save fault f).1 (if fault.any Step.leavesOld then m else m.save) := by
  obtain ⟨hlevels, hversion, hdocument⟩ := save_spec fault f
  split
  · next hold =>
    rw [if_pos hold] at hdocument
    exact ⟨hlevels.trans h.levels, hversion.trans h.version, hdocument.trans h.saved⟩
  · next hnew =>
    rw [if_neg hnew, h.levels, h.version] at hdocument
    exact ⟨hlevels.trans h.levels, hversion.trans h.version, hdocument⟩

/-- `add_sstable`: the entry is in memory whatever happens to the save. -/
theorem represents_addSstable {f : ManifestFile Nat} {m : Manifest} (h : Represents f m)
    (fault : Option Step) (level : Nat) (metadata : SSTableMeta) :
    Represents (addSstable fault f level metadata).1
      (if fault.any Step.leavesOld then m.addEntry level metadata else m.addSstable level metadata) := by
  have hchanged : Represents
      { f with
        levels := f.levels.set level (f.getLevelSstables level ++ [metadata])
        version := f.version + 1 } (m.addEntry level metadata) := by
    refine ⟨?_, congrArg (· + 1) h.version, h.saved⟩
    rw [getLevelSstables, h.levels]
    rfl
  exact represents_save hchanged fault

/-- `remove_sstable`: it is gone from memory whatever happens to the save. -/
theorem represents_removeSstable {f : ManifestFile Nat} {m : Manifest} (h : Represents f m)
    (fault : Option Step) (level : Nat) (sstablePath : Path) :
    Represents (removeSstable fault f level sstablePath).1
      (if fault.any Step.leavesOld then m.removeEntry level sstablePath
        else m.removeSstable level sstablePath) := by
  have hchanged : Represents
      { f with
        levels := f.levels.set level
          ((f.getLevelSstables level).filter fun entry => decide (entry.path ≠ sstablePath))
        version := f.version + 1 } (m.removeEntry level sstablePath) := by
    refine ⟨?_, congrArg (· + 1) h.version, h.saved⟩
    rw [getLevelSstables, h.levels]
    rfl
  exact represents_save hchanged fault

/-! ## Some runs -/

/-- A fresh object on a path without a file. -/
def absent : ManifestFile Int := ⟨.empty, 0, ⟨none, .absent⟩⟩

theorem inSync_absent : absent.InSync := ⟨absent, rfl, fun _ => rfl, rfl⟩

/-- A table of level 0. -/
def someTable : SSTableMeta := ⟨"db/sstable_1.sst", 0, some 1, 10, 2, "61", "62"⟩

/-- The directory cannot be synchronised after the second saving. -/
theorem inSync_run_iff_replaced :
    (∀ n, InSync (run afterCall absent ([(.addSstable 0 someTable, none), (.removeSstable 0 "db/sstable_1.sst",
        some .fsyncDirectory), (.save, some .dump)].take n))) ↔
      ∀ call ∈ [(Call.addSstable (0 : Int) someTable, none), (.removeSstable 0 "db/sstable_1.sst",
        some Step.fsyncDirectory), (.save, some .dump)], ¬Lost call :=
  inSync_run_iff absent inSync_absent _

/-- The temporary file cannot be written: the table is listed in memory only. -/
theorem inSync_run_fails :
    ¬ ∀ (m : ManifestFile Int), InSync m → ∀ calls : List (Call Int × Option Step),
      ∀ n, InSync (run afterCall m (calls.take n)) := by
  intro h
  have hall := h absent inSync_absent [(.addSstable 0 someTable, some .dump)]
  exact (inSync_calls_iff inSync_absent _).mp hall _ List.mem_cons_self ⟨by rintro ⟨⟩, rfl⟩

end ManifestFile

end Logvine
