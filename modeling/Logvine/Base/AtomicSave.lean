import Mathlib

/-!
# Saving a file by replacing it

A document is written to a temporary file, the temporary file is renamed onto the name
the document is read from, and the directory is synchronised. Any step may raise, and
ends the saving where it is.

- `save_spec`: the document that can be read is the new one, unless a step up to the
  renaming raised; then it is the old one.

Readers only ever see one complete document, which is the point of saving in this way; what
they cannot see is whether the saving has come to its end.
-/

namespace Logvine

namespace AtomicSave

universe u

variable {δ : Type u}

/-- What the temporary file holds. -/
inductive Temporary (δ : Type u) where
  | absent
  | incomplete
  | complete (document : δ)
deriving DecidableEq, Repr

/-- What is in the directory: the document, if there is one, and the temporary file. -/
structure SavedFile (δ : Type u) where
  document : Option δ
  temporary : Temporary δ
deriving DecidableEq, Repr

/-- The steps of a saving. -/
inductive Step where
  | openTemporary
  | dump
  | flush
  | fsync
  | replace
  | openDirectory
  | fsyncDirectory
  | closeDirectory
deriving DecidableEq, Repr

/-- All of them in order. -/
def Step.all : List Step :=
  [.openTemporary, .dump, .flush, .fsync, .replace, .openDirectory, .fsyncDirectory, .closeDirectory]

/-- What a step does when it does not raise. -/
def Step.run (document : δ) (f : SavedFile δ) : Step → SavedFile δ
  | .openTemporary => { f with temporary := .incomplete }
  | .dump => { f with temporary := .complete document }
  | .replace =>
    match f.temporary with
    | .complete written => ⟨some written, .absent⟩
    | _ => f
  | _ => f

/-- Whether a saving that raises at this step has not replaced the document yet. -/
def Step.leavesOld : Step → Bool
  | .openTemporary | .dump | .flush | .fsync | .replace => true
  | .openDirectory | .fsyncDirectory | .closeDirectory => false

/-- The steps up to the one that raises, and whether there was one. -/
def runSteps (fault : Option Step) (document : δ) : List Step → SavedFile δ → SavedFile δ × Bool
  | [], f => (f, false)
  | step :: steps, f =>
    if fault = some step then (f, true) else runSteps fault document steps (step.run document f)

/-- A whole saving. -/
def save (fault : Option Step) (document : δ) (f : SavedFile δ) : SavedFile δ × Bool :=
  runSteps fault document Step.all f

/-- **A saving replaces the document or leaves it**, and it raises if a step does. -/
theorem save_spec (fault : Option Step) (document : δ) (f : SavedFile δ) :
    (save fault document f).1.document =
        (if fault.any Step.leavesOld then f.document else some document) ∧
      (save fault document f).2 = fault.isSome := by
  cases fault with
  | none => exact ⟨rfl, rfl⟩
  | some step => cases step <;> exact ⟨rfl, rfl⟩

end AtomicSave

end Logvine
