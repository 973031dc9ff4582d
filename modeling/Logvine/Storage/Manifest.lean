import Logvine.Storage.SSTable

/-!
# The manifest

Which tables there are, level by level, in memory and in the manifest file. Every
update of the file replaces it by a rename, so the file is always one complete
document; dumping and parsing JSON is taken to be the identity on the entries.

An update consists of a change in memory and the saving of it, and either can be
the last thing that happens: `addEntry` and `removeEntry` are the first halves,
`save` the second.

The source is `manifest.py`, 64–107. Both halves run under the manifest's lock, so no other
thread comes between them; but an exception does, and then memory is ahead of the file.
-/

namespace Logvine

/-- The metadata dictionary of one table. -/
structure SSTableMeta where
  path : Path
  level : Nat
  createdAtMs : Option Nat
  sizeBytes : Nat
  entryCount : Nat
  minKeyHex : String
  maxKeyHex : String
deriving DecidableEq, Repr

/-- The tables of each level, in the order they were recorded. -/
abbrev Levels := Dict Nat (List SSTableMeta)

/-- A `Manifest`: the levels and version in memory, and those in the file, if
there is one. -/
structure Manifest where
  levels : Levels
  version : Nat
  saved : Option (Levels × Nat)

namespace Manifest

/-- `Manifest.load` on a fresh object: without a file there is nothing. -/
def load (saved : Option (Levels × Nat)) : Manifest :=
  match saved with
  | none => ⟨.empty, 0, none⟩
  | some (levels, version) => ⟨levels, version, some (levels, version)⟩

/-- `Manifest.save` and `Manifest._save_locked`. -/
def save (m : Manifest) : Manifest := { m with saved := some (m.levels, m.version) }

/-- `Manifest.get_level_sstables`. -/
def getLevelSstables (m : Manifest) (level : Nat) : List SSTableMeta := (m.levels.get? level).getD []

/-- `Manifest.add_sstable` up to the saving. -/
def addEntry (m : Manifest) (level : Nat) (metadata : SSTableMeta) : Manifest :=
  { m with
    levels := m.levels.set level (m.getLevelSstables level ++ [metadata])
    version := m.version + 1 }

/-- `Manifest.add_sstable`. -/
def addSstable (m : Manifest) (level : Nat) (metadata : SSTableMeta) : Manifest :=
  (m.addEntry level metadata).save

/-- `Manifest.remove_sstable` up to the saving. -/
def removeEntry (m : Manifest) (level : Nat) (sstablePath : Path) : Manifest :=
  { m with
    levels := m.levels.set level
      ((m.getLevelSstables level).filter fun entry => decide (entry.path ≠ sstablePath))
    version := m.version + 1 }

/-- `Manifest.remove_sstable`. -/
def removeSstable (m : Manifest) (level : Nat) (sstablePath : Path) : Manifest :=
  (m.removeEntry level sstablePath).save

/-- `Manifest.iter_levels`: a snapshot, by increasing level. -/
def iterLevels (m : Manifest) : List (Nat × List SSTableMeta) := m.levels.sortedItems

/-! ## What a level holds after an update -/

/-- Saving writes the file and leaves the levels in memory. -/
@[simp] theorem levels_save (m : Manifest) : m.save.levels = m.levels := rfl

@[simp] theorem getLevelSstables_save (m : Manifest) (level : Nat) :
    m.save.getLevelSstables level = m.getLevelSstables level := rfl

/-- An entry is added behind those of its level, and no other level changes. -/
theorem getLevelSstables_addEntry (m : Manifest) (level level' : Nat) (metadata : SSTableMeta) :
    (m.addEntry level metadata).getLevelSstables level' =
      if level = level' then m.getLevelSstables level ++ [metadata] else m.getLevelSstables level' := by
  show ((m.levels.set level _).get? level').getD [] = _
  rw [Dict.get?_set]
  split <;> rfl

/-- All entries of that path leave the level, and no other level changes. -/
theorem getLevelSstables_removeEntry (m : Manifest) (level level' : Nat) (sstablePath : Path) :
    (m.removeEntry level sstablePath).getLevelSstables level' =
      if level = level' then
        (m.getLevelSstables level).filter fun entry => decide (entry.path ≠ sstablePath)
      else m.getLevelSstables level' := by
  show ((m.levels.set level _).get? level').getD [] = _
  rw [Dict.get?_set]
  split <;> rfl

end Manifest

end Logvine
