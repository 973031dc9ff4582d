import Logvine.Base.Bytes

/-!
# One file name and the file objects behind it

A file name is bound to a *file object*; an open handle keeps the object it was
opened on, whatever the name is bound to later. Replacing a file by renaming
another one onto its name therefore leaves old handles writing into an object
no name leads to any more, while opening the name for writing empties the bound
object in place and every handle on it sees that.

- `NamedFile.append`: a handle opened for appending writes at the current end
  of its object, and its position moves there;
- `NamedFile.truncate`, `NamedFile.replace`: the two ways to change what the
  name reads as, in place and by renaming a new object onto it;
- `content_append`, `content_truncate`, `content_replace`: what the name reads
  as afterwards.
-/

namespace Logvine

/-- An open file: the object it was opened on and its position there. -/
structure Handle where
  object : Nat
  position : Nat
deriving DecidableEq, Repr

/-- The objects a name has been bound to, numbered in the order of their
creation, and the object it is bound to now. -/
structure NamedFile where
  objects : Nat → Bytes
  fresh : Nat
  binding : Option Nat
  binding_lt : ∀ b, binding = some b → b < fresh

namespace NamedFile

/-- A name that has never been bound. -/
def absent : NamedFile where
  objects := fun _ => []
  fresh := 0
  binding := none
  binding_lt := nofun

/-- Whether the name is bound. -/
def exists? (f : NamedFile) : Bool := f.binding.isSome

/-- The bytes read through the name, if it is bound. -/
def content (f : NamedFile) : Option Bytes := f.binding.map f.objects

/-- Bind the name to a new object holding `bs`: what renaming a freshly written
file onto it does. -/
def replace (f : NamedFile) (bs : Bytes) : NamedFile where
  objects := Function.update f.objects f.fresh bs
  fresh := f.fresh + 1
  binding := some f.fresh
  binding_lt := by
    rintro b ⟨rfl⟩
    exact Nat.lt_succ_self _

/-- Create the file, empty, if there is none. -/
def touch (f : NamedFile) : NamedFile := if f.exists? then f else f.replace []

/-- Overwrite an object, leaving names and handles as they are. -/
def write (f : NamedFile) (object : Nat) (bs : Bytes) : NamedFile :=
  { f with objects := Function.update f.objects object bs }

/-- Open the name for writing from scratch: the bound object is emptied in
place, or the file created. -/
def truncate (f : NamedFile) : NamedFile :=
  match f.binding with
  | some b => f.write b []
  | none => f.replace []

/-- Open the name for appending, creating the file if there is none; the position
is the end of the file. -/
def openAppend (f : NamedFile) : NamedFile × Handle :=
  match f.binding with
  | some b => (f, ⟨b, (f.objects b).length⟩)
  | none => (f.replace [], ⟨f.fresh, 0⟩)

/-- Append through a handle: at the end of its object, wherever the handle's
position was. -/
def append (f : NamedFile) (h : Handle) (bs : Bytes) : NamedFile × Handle :=
  (f.write h.object (f.objects h.object ++ bs),
    { h with position := (f.objects h.object).length + bs.length })

/-- The handle is on the object the name is bound to, at its end. -/
def InSync (f : NamedFile) (h : Handle) : Prop :=
  f.binding = some h.object ∧ h.position = (f.objects h.object).length

instance (f : NamedFile) (h : Handle) : Decidable (f.InSync h) :=
  inferInstanceAs (Decidable (_ ∧ _))

/-! ## What the name reads as -/

/-- The content of the name is that of the object it is bound to. -/
theorem content_of_binding {f : NamedFile} {b : Nat} (h : f.binding = some b) :
    f.content = some (f.objects b) := by
  rw [content, h]
  rfl

/-- Writing to an object does not bind the name anew. -/
@[simp] theorem binding_write (f : NamedFile) (o : Nat) (bs : Bytes) :
    (f.write o bs).binding = f.binding := rfl

/-- Replacing binds the name to a new object, which nobody has open. -/
@[simp] theorem binding_replace (f : NamedFile) (bs : Bytes) :
    (f.replace bs).binding = some f.fresh := rfl

@[simp] theorem objects_write_self (f : NamedFile) (o : Nat) (bs : Bytes) :
    (f.write o bs).objects o = bs := Function.update_self ..

theorem objects_write_of_ne {f : NamedFile} {o b : Nat} (bs : Bytes) (h : b ≠ o) :
    (f.write o bs).objects b = f.objects b := Function.update_of_ne h ..

/-- After a replacement the name has the new content, all of it. -/
@[simp] theorem content_replace (f : NamedFile) (bs : Bytes) :
    (f.replace bs).content = some bs := by
  rw [content_of_binding (binding_replace f bs)]
  exact congrArg some (Function.update_self ..)

/-- Appending through a handle on the bound object extends what the name reads
as; through any other handle it does not show. -/
theorem content_append {f : NamedFile} {b : Nat} (hb : f.binding = some b) (h : Handle)
    (bs : Bytes) : (f.append h bs).1.content =
      some (if b = h.object then f.objects b ++ bs else f.objects b) := by
  rw [content_of_binding (f := (f.append h bs).1) hb]
  -- the handle may be on an object the name has been bound to before
  by_cases hbo : b = h.object
  · subst hbo
    rw [if_pos rfl]
    exact congrArg some (objects_write_self ..)
  · rw [if_neg hbo]
    exact congrArg some (objects_write_of_ne _ hbo)

/-- Opening for writing leaves an empty file. -/
theorem content_truncate {f : NamedFile} : f.truncate.content = some [] := by
  unfold truncate
  split
  · next b hb => rw [content_of_binding (f := f.write b []) hb, objects_write_self]
  · exact content_replace f []

/-- Opening for appending makes a missing file, and leaves one that is there. -/
theorem content_touch {f : NamedFile} : f.touch.content = some (f.content.getD []) := by
  unfold touch exists? content
  cases h : f.binding with
  | none => exact content_replace f []
  | some b =>
    show f.binding.map f.objects = _
    rw [h]
    rfl

/-! ## Handles in sync with the name -/

/-- A handle that was just opened is at the end of the named file. -/
theorem inSync_openAppend (f : NamedFile) : f.openAppend.1.InSync f.openAppend.2 := by
  unfold openAppend
  split
  · next b hb => exact ⟨hb, rfl⟩
  · refine ⟨rfl, ?_⟩
    show 0 = (Function.update f.objects f.fresh [] f.fresh).length
    rw [Function.update_self]
    rfl

/-- Opening for appending does not change what is there. -/
theorem content_openAppend {f : NamedFile} {bs : Bytes} (h : f.content = some bs) :
    f.openAppend.1.content = some bs := by
  unfold openAppend
  split
  · exact h
  · next hb =>
    rw [content, hb] at h
    cases h

theorem object_openAppend_lt (f : NamedFile) : f.openAppend.2.object < f.openAppend.1.fresh := by
  unfold openAppend
  split
  · next b hb => exact f.binding_lt b hb
  · exact Nat.lt_succ_self _

/-- A handle in sync stays in sync when it appends, and its writes are read. -/
theorem inSync_append {f : NamedFile} {h : Handle} (hs : f.InSync h) (bs : Bytes) :
    (f.append h bs).1.InSync (f.append h bs).2 := by
  refine ⟨hs.1, ?_⟩
  show _ = ((f.write h.object (f.objects h.object ++ bs)).objects h.object).length
  rw [objects_write_self, List.length_append]
  rfl

/-- An append through a handle in sync comes behind the content. -/
theorem content_append_of_inSync {f : NamedFile} {h : Handle} (hs : f.InSync h) (bs : Bytes) :
    (f.append h bs).1.content = some (f.objects h.object ++ bs) := by
  rw [content_append hs.1, if_pos rfl]

/-- After a rename no handle opened before is on the bound object. -/
theorem not_inSync_replace {f : NamedFile} {h : Handle} (hlt : h.object < f.fresh) (bs : Bytes) :
    (f.replace bs).binding ≠ some h.object := by
  rw [binding_replace]
  intro h
  exact Nat.ne_of_gt hlt (Option.some.inj h)

end NamedFile

end Logvine
