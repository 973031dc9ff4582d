import Mathlib

/-!
# Reading files one at a time

A reader that opens several files does so one after the other, and what it opens
next depends on what it has seen. `Reads ι β α` is such a reader: it is done, or
it opens the file `i` and goes on with the content it finds there. Run on one
directory it is a function (`run`); run step by step, the directory may change
between two steps.

- `Robust`: a reader opens only files of one kind and does not care whether
  those of another kind are there;
- `Robust.step`: such a reader, stepping through a directory that has lost files,
  still gives the result of a run on the full directory as long as it opens only
  files that are there or that it does not care about.
-/

namespace Logvine

universe u v w

/-- A reader: finished, or about to open a file. -/
inductive Reads (ι : Type u) (β : Type v) (α : Type w) where
  | done (a : α)
  | opening (i : ι) (next : β → Reads ι β α)

namespace Reads

variable {ι : Type u} {β : Type v} {α α' : Type w}

/-- The result on one directory. -/
def run (files : ι → β) : Reads ι β α → α
  | done a => a
  | opening i next => (next (files i)).run files

/-- One step on the directory as it is. -/
def step (files : ι → β) : Reads ι β α → Reads ι β α
  | done a => done a
  | opening i next => next (files i)

/-- The result, if there is nothing more to open. -/
def finished : Reads ι β α → Option α
  | done a => some a
  | opening _ _ => none

/-- A reader that has finished has its answer, whatever the files are. -/
theorem run_of_finished {r : Reads ι β α} {a : α} (h : r.finished = some a) (files : ι → β) : r.run files = a := by
  cases r with
  | done b => exact Option.some.inj h
  | opening i next => cases h

/-- Go on with the result. -/
def bind (r : Reads ι β α) (f : α → Reads ι β α') : Reads ι β α' :=
  match r with
  | done a => f a
  | opening i next => opening i fun b => (next b).bind f

instance : Monad (Reads ι β) where
  pure := done
  bind := bind

@[simp] theorem run_done (files : ι → β) (a : α) : (done a : Reads ι β α).run files = a := rfl

/-- One reader after the other, over the same files. -/
theorem run_bind (files : ι → β) (r : Reads ι β α) (f : α → Reads ι β α') :
    (r.bind f).run files = (f (r.run files)).run files := by
  induction r with
  | done a => rfl
  | opening i next ih => exact ih (files i)

/-! ## Readers that may fail -/

section Except

variable {ε : Type w}

/-- The result of a reader that may fail. -/
def result (files : ι → β) (r : ExceptT ε (Reads ι β) α) : Except ε α := run files r.run

@[simp] theorem result_pure (files : ι → β) (a : α) :
    result files (pure a : ExceptT ε (Reads ι β) α) = .ok a := rfl

@[simp] theorem result_throw (files : ι → β) (e : ε) :
    result files (throw e : ExceptT ε (Reads ι β) α) = .error e := rfl

/-- Failing readers compose as failing results do. -/
theorem result_bind (files : ι → β) (r : ExceptT ε (Reads ι β) α) (f : α → ExceptT ε (Reads ι β) α') :
    result files (r >>= f) = result files r >>= fun a => result files (f a) := by
  show run files (Reads.bind r.run (ExceptT.bindCont f)) = _
  rw [run_bind]
  show run files (ExceptT.bindCont f (result files r)) = _
  cases result files r with
  | error e => rfl
  | ok a => rfl

/-- A result that needs no file. -/
def settled (x : Except ε α) : ExceptT ε (Reads ι β) α := ExceptT.mk (done x)

@[simp] theorem result_settled (files : ι → β) (x : Except ε α) :
    result files (settled x) = x := rfl

/-- Open one file and go on with its content. -/
def readFile {ε : Type v} (i : ι) : ExceptT ε (Reads ι β) β := ExceptT.mk (opening i fun b => done (.ok b))

end Except

/-! ## Readers and missing files -/

/-- Whatever is missing, the reader opens only files of kind `opens`, and for those
of kind `spared` it makes no difference whether they are there. -/
def Robust (files : ι → β) (missing : β) (opens spared : ι → Prop) : Reads ι β α → Prop
  | done _ => True
  | opening i next => opens i ∧ (spared i → next missing = next (files i)) ∧
      (next missing).Robust files missing opens spared ∧ (next (files i)).Robust files missing opens spared

section Robust

variable {files : ι → β} {missing : β} {opens spared : ι → Prop}

/-- A reader made of two robust parts is robust. -/
theorem Robust.bind {r : Reads ι β α} {f : α → Reads ι β α'} (h : r.Robust files missing opens spared)
    (hf : ∀ a, (f a).Robust files missing opens spared) :
    (r.bind f).Robust files missing opens spared := by
  induction r with
  | done a => exact hf a
  | opening i next ih =>
    obtain ⟨hi, hspared, hmissing, hthere⟩ := h
    refine ⟨hi, ?_, ih missing hmissing, ih (files i) hthere⟩
    intro hs
    show (next missing).bind f = (next (files i)).bind f
    rw [hspared hs]

/-- Failing readers compose likewise. -/
theorem Robust.except_bind {ε : Type w} {r : ExceptT ε (Reads ι β) α} {f : α → ExceptT ε (Reads ι β) α'}
    (h : Robust files missing opens spared r.run)
    (hf : ∀ a, Robust files missing opens spared (f a).run) :
    Robust files missing opens spared (r >>= f).run := by
  refine Robust.bind (f := ExceptT.bindCont f) h ?_
  intro a
  cases a with
  | error e => trivial
  | ok a => exact hf a

/-- Reading a file first. -/
theorem robust_readFile {ε α : Type v} {i : ι} {f : β → ExceptT ε (Reads ι β) α} (hi : opens i)
    (hspared : spared i → f missing = f (files i))
    (hmissing : Robust files missing opens spared (f missing).run)
    (hthere : Robust files missing opens spared (f (files i)).run) :
    Robust files missing opens spared (readFile i >>= f).run :=
  ⟨hi, fun h => congrArg ExceptT.run (hspared h), hmissing, hthere⟩

/-- **A step through a directory that lost files**: it keeps the result, if the file
opened is there or spared. -/
theorem Robust.step {r : Reads ι β α} (h : r.Robust files missing opens spared) (now : ι → β)
    (hnow : ∀ i next, r = opening i next → opens i → now i = files i ∨ now i = missing ∧ spared i) :
    (r.step now).Robust files missing opens spared ∧ (r.step now).run files = r.run files := by
  cases r with
  | done a => exact ⟨trivial, rfl⟩
  | opening i next =>
    obtain ⟨hi, hspared, hmissing, hthere⟩ := h
    show (next (now i)).Robust files missing opens spared ∧ (next (now i)).run files = (next (files i)).run files
    -- the file is as it was, or it is gone and the reader goes on as if it were there
    rcases hnow i next rfl hi with heq | ⟨heq, hs⟩
    · rw [heq]
      exact ⟨hthere, rfl⟩
    · rw [heq, hspared hs]
      exact ⟨hthere, rfl⟩

end Robust

end Reads

end Logvine
