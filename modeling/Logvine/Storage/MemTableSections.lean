import Logvine.Storage.MemTableCode

/-!
# Threads in the memtable

Any number of threads call the methods. Every access to an attribute is a step, as is every
step of the read-write lock around a section.

- `Guarded`, `guardAct`: the memtable, its lock and what the threads have still to do;
- `sectionActs`: what their steps are for the sections, once the lock is forgotten (`follows`);
- `sections_atomic`: the calls that have ended did what they do one after the other, each as
  one step.

All other modules take a method of the memtable for one step; this one says why they may. By
the lock a section that changes the memtable is alone in it
(`Logvine.Storage.ReadWriteLock`), and sections of which the changing ones are alone are as
good as one step each, whatever is inside them (`Logvine.Base.Sections`).
-/

namespace Logvine

open LockOrder Sections

namespace MemTable

section Threads

variable {ι : Type} [DecidableEq ι]

/-- A memtable, its lock, and the calls of the threads with what is left of their sections. -/
structure Guarded (ι : Type) where
  locks : Shared Locks LockPc ι
  memory : MemTable
  calls : ι → Option (Section × Code MemTable Answer)

/-- What a thread does next: it calls a method, makes a step of the lock, or accesses an attribute. -/
inductive GuardAct (ι : Type) where
  | call (t : ι) (sec : Section)
  | lock (t : ι)
  | access (t : ι)

/-- The thread is in its critical section. -/
def inside : Option LockPc → Bool
  | some .reading | some .writing => true
  | _ => false

namespace Guarded

/-- Nobody has called anything. -/
def start (m : MemTable) : Guarded ι := ⟨⟨.init, fun _ => none⟩, m, fun _ => none⟩

omit [DecidableEq ι] in
/-- The section a thread is in, and what is left of it. -/
def active (g : Guarded ι) (t : ι) : Option (Section × Code MemTable Answer) :=
  if inside (g.locks.pc t) then g.calls t else none

/-- The next step of the lock; a thread leaves its critical section at the end of it only. -/
def nextLocks (g : Guarded ι) (t : ι) : Option (Shared Locks LockPc ι) :=
  match g.active t with
  | some (_, .look _) | some (_, .change _ _) => none
  | _ => g.locks.next Locks.step t

end Guarded

/-- A step; one that is not possible changes nothing. -/
def guardAct (g : Guarded ι) : GuardAct ι → Guarded ι
  | .call t sec =>
    match g.locks.pc t with
    | none =>
      { g with
        locks := g.locks.moved t g.locks.state (some sec.entry)
        calls := Function.update g.calls t (some (sec, sec.body)) }
    | some _ => g
  | .lock t => { g with locks := (g.nextLocks t).getD g.locks }
  | .access t =>
    match g.active t with
    | some (sec, .look next) => { g with calls := Function.update g.calls t (some (sec, next g.memory)) }
    | some (sec, .change f next) =>
      { g with memory := f g.memory, calls := Function.update g.calls t (some (sec, next)) }
    | _ => g

/-- What a call answers, when it begins to release the lock. -/
def answered (g : Guarded ι) : GuardAct ι → List (Section × Answer)
  | .lock t =>
    match g.active t with
    | some (sec, .done answer) => if (g.locks.next Locks.step t).isSome then [(sec, answer)] else []
    | _ => []
  | .call _ _ | .access _ => []

/-! ## The lock and the sections -/

/-- What a thread at some point of the lock has called. -/
def Fits : Option LockPc → Option (Section × Code MemTable Answer) → Prop
  | some .acquireRead, x | some .countIn, x | some .testFirst, x | some .blockWriters, x | some .admitReaders, x =>
    ∃ sec, x = some (sec, sec.body) ∧ sec.writes = false
  | some .reading, x => ∃ sec code, x = some (sec, code) ∧ sec.writes = false
  | some .acquireWrite, x => ∃ sec, x = some (sec, sec.body) ∧ sec.writes = true
  | some .writing, x => ∃ sec code, x = some (sec, code) ∧ sec.writes = true
  | _, _ => True

/-- The invariant: that of the lock, and that the calls are those it has let in. -/
structure Sound (g : Guarded ι) : Prop where
  locks : SomeInv g.locks
  fits : ∀ t, Fits (g.locks.pc t) (g.calls t)

omit [DecidableEq ι] in
/-- The memtable and the sections that are under way. -/
def Guarded.sections (g : Guarded ι) : Config MemTable Answer Section ι := ⟨g.memory, g.active⟩

/-- What a step is for the sections: one begins, goes on or ends, or nothing happens. -/
def sectionActs (g : Guarded ι) : GuardAct ι → List (Action Section ι)
  | .call _ _ => []
  | .lock t =>
    match g.nextLocks t with
    | none => []
    | some locks =>
      if inside (g.locks.pc t) then [.leave t]
      else if inside (locks.pc t) then (g.calls t).elim [] fun x => [.enter t x.1]
      else []
  | .access t => [.access t]

/-- A thread that leaves its critical section is outside. -/
theorem not_inside_step {s s' : Locks} {p : LockPc} {p' : Option LockPc} (h : s.step p = some (s', p'))
    (hp : inside (some p) = true) : inside p' = false := by
  cases p with
  | reading =>
    rw [Locks.step] at h
    split at h
    · cases h
    · cases h
      rfl
  | writing =>
    rw [Locks.step] at h
    split at h <;> cases h <;> rfl
  | acquireRead | countIn | testFirst | blockWriters | admitReaders | countOut | testLast | admitWriters | leave
  | acquireWrite | raised => cases hp

/-- How a thread comes into its critical section. -/
theorem inside_step {s s' : Locks} {p : LockPc} {p' : Option LockPc} (h : s.step p = some (s', p'))
    (hp : inside (some p) = false) (hp' : inside p' = true) :
    (p = .admitReaders ∧ p' = some .reading) ∨ (p = .acquireWrite ∧ p' = some .writing) := by
  cases p with
  | admitReaders =>
    rw [Locks.step] at h
    split at h
    · cases h
      exact .inl ⟨rfl, rfl⟩
    · cases h
      cases hp'
  | acquireWrite =>
    rw [Locks.step] at h
    split at h
    · cases h
    · cases h
      exact .inr ⟨rfl, rfl⟩
  | reading | writing => cases hp
  | acquireRead | blockWriters | admitWriters | leave =>
    rw [Locks.step] at h
    split at h <;> cases h <;> cases hp'
  | testFirst | testLast =>
    cases h
    split at hp' <;> cases hp'
  | countIn | countOut =>
    cases h
    cases hp'
  | raised => cases h

omit [DecidableEq ι] in
/-- A step of the lock leaves the call as it is. -/
theorem fits_step {s s' : Locks} {p : LockPc} {p' : Option LockPc} (h : s.step p = some (s', p'))
    {x : Option (Section × Code MemTable Answer)} (hx : Fits (some p) x) : Fits p' x := by
  cases p with
  | acquireRead | blockWriters =>
    rw [Locks.step] at h
    split at h
    · cases h
    · cases h
      exact hx
  | countIn =>
    cases h
    exact hx
  | testFirst =>
    cases h
    split <;> exact hx
  | admitReaders =>
    rw [Locks.step] at h
    split at h
    · cases h
      obtain ⟨sec, hx, hsec⟩ := hx
      exact ⟨sec, sec.body, hx, hsec⟩
    · cases h
      trivial
  | acquireWrite =>
    rw [Locks.step] at h
    split at h
    · cases h
    · cases h
      obtain ⟨sec, hx, hsec⟩ := hx
      exact ⟨sec, sec.body, hx, hsec⟩
  | reading =>
    rw [Locks.step] at h
    split at h
    · cases h
    · cases h
      trivial
  | admitWriters | leave | writing =>
    rw [Locks.step] at h
    split at h <;> cases h <;> trivial
  | countOut =>
    cases h
    trivial
  | testLast =>
    cases h
    split <;> trivial
  | raised => cases h

omit [DecidableEq ι] in
theorem active_eq_some {g : Guarded ι} {t : ι} {x : Section × Code MemTable Answer} :
    g.active t = some x ↔ inside (g.locks.pc t) = true ∧ g.calls t = some x := by
  rw [Guarded.active]
  split
  · next hin => exact (and_iff_right hin).symm
  · next hout =>
    constructor
    · rintro ⟨⟩
    · exact fun h => absurd h.1 hout

/-- A thread inside is there by the lock it has asked for. -/
theorem fits_inside {p : Option LockPc} (hp : inside p = true) {x : Option (Section × Code MemTable Answer)}
    (h : Fits p x) : ∃ sec code, x = some (sec, code) ∧
      ((p = some .reading ∧ sec.writes = false) ∨ (p = some .writing ∧ sec.writes = true)) := by
  cases p with
  | none => cases hp
  | some p =>
    cases p with
    | reading =>
      obtain ⟨sec, code, hx, hreads⟩ := h
      exact ⟨sec, code, hx, .inl ⟨rfl, hreads⟩⟩
    | writing =>
      obtain ⟨sec, code, hx, hwrites⟩ := h
      exact ⟨sec, code, hx, .inr ⟨rfl, hwrites⟩⟩
    | acquireRead | countIn | testFirst | blockWriters | admitReaders | countOut | testLast | admitWriters | leave
    | acquireWrite | raised => cases hp

/-- The code of a section that goes on is another one, the section is the same. -/
theorem Fits.goOn {p : Option LockPc} (hp : inside p = true) {sec : Section} {code : Code MemTable Answer}
    (h : Fits p (some (sec, code))) (code' : Code MemTable Answer) : Fits p (some (sec, code')) := by
  obtain ⟨sec', code'', heq, hpc⟩ := fits_inside hp h
  cases heq
  obtain ⟨rfl, hreads⟩ | ⟨rfl, hwrites⟩ := hpc
  · exact ⟨sec, code', rfl, hreads⟩
  · exact ⟨sec, code', rfl, hwrites⟩

/-- The lock lets a thread go on only with its section at an end. -/
theorem nextLocks_eq_some {g : Guarded ι} {t : ι} {locks : Shared Locks LockPc ι} (h : g.nextLocks t = some locks) :
    g.locks.next Locks.step t = some locks ∧ ∀ x, g.active t = some x → ∃ answer, x.2 = .done answer := by
  rw [Guarded.nextLocks] at h
  split at h
  · cases h
  · cases h
  · next hlook hchange =>
    refine ⟨h, fun x hx => ?_⟩
    obtain ⟨sec, code⟩ := x
    cases code with
    | done answer => exact ⟨answer, rfl⟩
    | look next => exact (hlook sec next hx).elim
    | change f next => exact (hchange sec f next hx).elim

omit [DecidableEq ι] in
theorem fits_entry (sec : Section) : Fits (some sec.entry) (some (sec, sec.body)) := by
  rw [Section.entry]
  split
  · next hwrites => exact ⟨sec, rfl, hwrites⟩
  · next hreads => exact ⟨sec, rfl, Bool.eq_false_iff.mpr hreads⟩

theorem entry_entry (sec : Section) : LockPc.Entry sec.entry := by
  rw [Section.entry]
  split
  · exact .write
  · exact .read

theorem not_inside_entry (sec : Section) : inside (some sec.entry) = false := by
  rw [Section.entry]
  split <;> rfl

/-- A call that gets somewhere else in its section. -/
theorem Sound.goOn {g : Guarded ι} (h : Sound g) {t : ι} {sec : Section} {code : Code MemTable Answer}
    (ht : g.active t = some (sec, code)) (memory : MemTable) (code' : Code MemTable Answer) :
    Sound { g with memory, calls := Function.update g.calls t (some (sec, code')) } := by
  obtain ⟨hin, hcall⟩ := active_eq_some.mp ht
  refine ⟨h.locks, fun u => ?_⟩
  show Fits (g.locks.pc u) (Function.update g.calls t (some (sec, code')) u)
  by_cases hu : u = t
  · subst hu
    have hfits := h.fits u
    rw [hcall] at hfits
    rw [Function.update_self]
    exact hfits.goOn hin code'
  · rw [Function.update_of_ne hu]
    exact h.fits u

theorem sound_guardAct {g : Guarded ι} (h : Sound g) (a : GuardAct ι) : Sound (guardAct g a) := by
  cases a with
  | call t sec =>
    rw [guardAct]
    split
    · next hpc =>
      refine ⟨someInv_enter h.locks hpc (entry_entry sec), fun u => ?_⟩
      show Fits (Function.update g.locks.pc t _ u) (Function.update g.calls t _ u)
      by_cases hu : u = t
      · subst hu
        rw [Function.update_self, Function.update_self]
        exact fits_entry sec
      · rw [Function.update_of_ne hu, Function.update_of_ne hu]
        exact h.fits u
    · exact h
  | lock t =>
    rw [guardAct]
    cases hnext : g.nextLocks t with
    | none => exact h
    | some locks =>
      have hlocks := (nextLocks_eq_some hnext).1
      refine ⟨safe.next h.locks hlocks, fun u => ?_⟩
      obtain ⟨p, state, p', hp, hstep, rfl⟩ := Shared.next_eq_some.mp hlocks
      show Fits (Function.update g.locks.pc t p' u) (g.calls u)
      by_cases hu : u = t
      · subst hu
        rw [Function.update_self]
        exact fits_step hstep (hp ▸ h.fits u)
      · rw [Function.update_of_ne hu]
        exact h.fits u
  | access t =>
    rw [guardAct]
    split
    · next ht => exact h.goOn ht g.memory _
    · next ht => exact h.goOn ht _ _
    · exact h

theorem sound_run {g : Guarded ι} (h : Sound g) (actions : List (GuardAct ι)) : Sound (Runs.run guardAct g actions) :=
  @Runs.run_invariant _ _ guardAct Sound (fun _ _ => True) (fun _ a h _ => sound_guardAct h a) _ actions h
    (Runs.along_of_forall (fun _ _ => trivial) _)

/-! ### Simulation -/

/-- A thread that moves changes its own section only. -/
theorem sections_moved (g : Guarded ι) (t : ι) (state : Locks) (p : Option LockPc) :
    Guarded.sections { g with locks := g.locks.moved t state p } =
      g.sections.moved t g.memory (if inside p then g.calls t else none) := by
  refine congrArg (Config.mk g.memory) (funext fun u => ?_)
  rw [Function.update_apply]
  show (if inside (Function.update g.locks.pc t p u) then g.calls u else none) = _
  by_cases hu : u = t
  · subst hu
    rw [Function.update_self, if_pos rfl]
  · rw [Function.update_of_ne hu, if_neg hu]
    rfl

/-- A section that goes on. -/
theorem sections_goOn {g : Guarded ι} {t : ι} (hin : inside (g.locks.pc t) = true) (memory : MemTable)
    (x : Section × Code MemTable Answer) :
    Guarded.sections { g with memory, calls := Function.update g.calls t (some x) } =
      g.sections.moved t memory (some x) := by
  refine congrArg (Config.mk memory) (funext fun u => ?_)
  rw [Function.update_apply]
  show (if inside (g.locks.pc u) then Function.update g.calls t (some x) u else none) = _
  by_cases hu : u = t
  · subst hu
    rw [Function.update_self, if_pos hin, if_pos rfl]
  · rw [Function.update_of_ne hu, if_neg hu]
    rfl

/-- A thread that is outside calls. -/
theorem sections_call {g : Guarded ι} {t : ι} (hpc : g.locks.pc t = none) (sec : Section) :
    (guardAct g (.call t sec)).sections = g.sections := by
  rw [guardAct, hpc]
  refine congrArg (Config.mk g.memory) (funext fun u => ?_)
  show (if inside (Function.update g.locks.pc t (some sec.entry) u) then Function.update g.calls t _ u else none) = _
  by_cases hu : u = t
  · subst hu
    rw [Function.update_self, not_inside_entry]
    show none = if inside (g.locks.pc u) then g.calls u else none
    rw [hpc]
    rfl
  · rw [Function.update_of_ne hu, Function.update_of_ne hu]
    rfl

theorem moved_none {g : Guarded ι} {t : ι} (ht : g.active t = none) :
    g.sections.moved t g.memory none = g.sections := by
  have hsame : g.sections.active t = none := ht
  rw [Config.moved, ← hsame, Function.update_eq_self]
  rfl

omit [DecidableEq ι] in
/-- The section that a thread at the door has called. -/
theorem exists_called {g : Guarded ι} (h : Sound g) {t : ι} {p : LockPc} {state : Locks} {p' : Option LockPc}
    (hp : g.locks.pc t = some p) (hstep : g.locks.state.step p = some (state, p')) (hout : inside (some p) = false)
    (hin : inside p' = true) : ∃ sec, g.calls t = some (sec, sec.body) ∧
      ((p' = some .reading ∧ sec.writes = false) ∨ (p' = some .writing ∧ sec.writes = true)) := by
  have hfits := h.fits t
  rw [hp] at hfits
  obtain ⟨rfl, rfl⟩ | ⟨rfl, rfl⟩ := inside_step hstep hout hin
  · obtain ⟨sec, hcall, hreads⟩ := hfits
    exact ⟨sec, hcall, .inl ⟨rfl, hreads⟩⟩
  · obtain ⟨sec, hcall, hwrites⟩ := hfits
    exact ⟨sec, hcall, .inr ⟨rfl, hwrites⟩⟩

omit [DecidableEq ι] in
/-- Who is in a section is there as the lock knows it. -/
theorem Sound.pc_of_active {g : Guarded ι} (h : Sound g) {u : ι} {x : Section × Code MemTable Answer}
    (hu : g.active u = some x) :
    (g.locks.pc u = some .reading ∧ x.1.writes = false) ∨ (g.locks.pc u = some .writing ∧ x.1.writes = true) := by
  obtain ⟨hin, hcall⟩ := active_eq_some.mp hu
  obtain ⟨sec, code, heq, hpc⟩ := fits_inside hin (h.fits u)
  obtain rfl : x = (sec, code) := Option.some.inj (hcall.symm.trans heq)
  exact hpc

/-- **Whom the lock lets in** may begin: nobody beside a writer. -/
theorem admits_enter {g : Guarded ι} (h : Sound g) {t : ι} {p : LockPc} {state : Locks} {p' : Option LockPc}
    (hlocks : SomeInv (g.locks.moved t state p')) (hp : g.locks.pc t = some p) (hout : inside (some p) = false)
    {sec : Section} (hsec : (p' = some .reading ∧ sec.writes = false) ∨ (p' = some .writing ∧ sec.writes = true)) :
    Admits Section.writes g.sections (.enter t sec) := by
  obtain ⟨inner, outer, hinv⟩ := hlocks
  have hexcludes := hinv.excludes
  have ht : (g.locks.moved t state p').pc t = p' := Function.update_self ..
  intro u x hu
  have hut : u ≠ t := by
    rintro rfl
    have hin := (active_eq_some.mp hu).1
    rw [hp, hout] at hin
    cases hin
  have hpc : (g.locks.moved t state p').pc u = g.locks.pc u := Function.update_of_ne hut ..
  obtain ⟨hreading, hx⟩ | ⟨hwriting, hx⟩ := h.pc_of_active hu
  · obtain ⟨rfl, hsec⟩ | ⟨rfl, hsec⟩ := hsec
    · exact ⟨hsec, hx⟩
    · exact absurd (hpc.trans hreading) (hexcludes.noReader t u ht)
  · obtain ⟨rfl, hsec⟩ | ⟨rfl, hsec⟩ := hsec
    · exact absurd ht (hexcludes.noReader u t (hpc.trans hwriting))
    · exact absurd (hexcludes.oneWriter u t (hpc.trans hwriting) ht) hut

/-- Some steps of the sections that are what the threads do. -/
structure Follows (g : Guarded ι) (a : GuardAct ι) (acts : List (Action Section ι)) : Prop where
  along : Runs.Along (act Section.body) (Admits Section.writes) g.sections acts
  moves : Runs.run (act Section.body) g.sections acts = (guardAct g a).sections
  answers : Runs.collect (act Section.body) ended g.sections acts = answered g a

theorem follows_nothing {g : Guarded ι} {a : GuardAct ι} (hmoves : (guardAct g a).sections = g.sections)
    (hanswers : answered g a = []) : Follows g a [] := ⟨trivial, hmoves.symm, hanswers.symm⟩

/-- A thread at the end of its section. -/
theorem follows_leave {g : Guarded ι} {t : ι} {sec : Section} {answer : Answer} {p : LockPc} {state : Locks}
    {p' : Option LockPc} (ht : g.active t = some (sec, .done answer)) (hp : g.locks.pc t = some p)
    (hstep : g.locks.state.step p = some (state, p')) : Follows g (.lock t) [.leave t] := by
  have hnext : g.locks.next Locks.step t = some (g.locks.moved t state p') :=
    Shared.next_eq_some.mpr ⟨p, state, p', hp, hstep, rfl⟩
  have hact : g.sections.active t = some (sec, .done answer) := ht
  have hin : inside (some p) = true := hp ▸ (active_eq_some.mp ht).1
  refine ⟨⟨trivial, trivial⟩, ?_, ?_⟩
  · rw [Runs.run_cons, act, hact, guardAct, Guarded.nextLocks, ht, hnext]
    show _ = Guarded.sections { g with locks := g.locks.moved t state p' }
    rw [sections_moved, not_inside_step hstep hin]
    rfl
  · rw [Runs.collect, ended, hact, answered, ht, hnext]
    rfl

/-- A thread that comes in. -/
theorem follows_enter {g : Guarded ι} (h : Sound g) {t : ι} {p : LockPc} {state : Locks} {p' : Option LockPc}
    (hp : g.locks.pc t = some p) (hstep : g.locks.state.step p = some (state, p')) (hout : inside (some p) = false)
    (hin : inside p' = true) : Follows g (.lock t) ((g.calls t).elim [] fun x => [.enter t x.1]) := by
  have hnext : g.locks.next Locks.step t = some (g.locks.moved t state p') :=
    Shared.next_eq_some.mpr ⟨p, state, p', hp, hstep, rfl⟩
  have ht : g.active t = none := by rw [Guarded.active, hp, hout]; rfl
  have hact : g.sections.active t = none := ht
  obtain ⟨sec, hcall, hsec⟩ := exists_called h hp hstep hout hin
  rw [hcall, Option.elim_some]
  refine ⟨⟨admits_enter h (safe.next h.locks hnext) hp hout hsec, trivial⟩, ?_, ?_⟩
  · rw [Runs.run_cons, act, hact, guardAct, Guarded.nextLocks, ht, hnext]
    show _ = Guarded.sections { g with locks := g.locks.moved t state p' }
    rw [sections_moved, hin, hcall]
    rfl
  · rw [Runs.collect, ended, answered, ht]
    rfl

theorem follows_lock {g : Guarded ι} (h : Sound g) (t : ι) : Follows g (.lock t) (sectionActs g (.lock t)) := by
  cases hnext : g.nextLocks t with
  | none =>
    rw [sectionActs, hnext]
    refine follows_nothing ?_ ?_
    · rw [guardAct, hnext]
      rfl
    · rw [answered]
      split
      · next sec answer ht =>
        rw [Guarded.nextLocks, ht] at hnext
        have hnone : g.locks.next Locks.step t = none := hnext
        rw [hnone]
        rfl
      · rfl
  | some locks =>
    obtain ⟨hlocks, hdone⟩ := nextLocks_eq_some hnext
    obtain ⟨p, state, p', hp, hstep, rfl⟩ := Shared.next_eq_some.mp hlocks
    rw [sectionActs, hnext]
    show Follows g (.lock t)
      (if inside (g.locks.pc t) then _ else if inside (Function.update g.locks.pc t p' t) then _ else _)
    rw [Function.update_self, hp]
    cases hin : inside (some p) with
    | true =>
      rw [if_pos rfl]
      have hfits := h.fits t
      rw [hp] at hfits
      obtain ⟨sec, code, hcall, -⟩ := fits_inside hin hfits
      have ht : g.active t = some (sec, code) := active_eq_some.mpr ⟨hp ▸ hin, hcall⟩
      obtain ⟨answer, hcode⟩ := hdone _ ht
      obtain rfl : code = .done answer := hcode
      exact follows_leave ht hp hstep
    | false =>
      have ht : g.active t = none := by rw [Guarded.active, hp, hin]; rfl
      rw [if_neg Bool.false_ne_true]
      cases hin' : inside p' with
      | true =>
        rw [if_pos rfl]
        exact follows_enter h hp hstep hin hin'
      | false =>
        rw [if_neg Bool.false_ne_true]
        refine follows_nothing ?_ ?_
        · rw [guardAct, hnext]
          show Guarded.sections { g with locks := g.locks.moved t state p' } = _
          rw [sections_moved, hin']
          exact moved_none ht
        · rw [answered, ht]

/-- **Every step of the threads** is one of the sections, or none. -/
theorem follows {g : Guarded ι} (h : Sound g) (a : GuardAct ι) : Follows g a (sectionActs g a) := by
  cases a with
  | call t sec =>
    refine follows_nothing ?_ rfl
    cases hpc : g.locks.pc t with
    | none => exact sections_call hpc sec
    | some p => rw [guardAct, hpc]
  | lock t => exact follows_lock h t
  | access t =>
    refine ⟨⟨trivial, trivial⟩, ?_, rfl⟩
    show act Section.body g.sections (.access t) = _
    have hact : g.sections.active t = g.active t := rfl
    rw [guardAct, act, hact]
    cases ht : g.active t with
    | none => rfl
    | some x =>
      obtain ⟨sec, code⟩ := x
      have hin := (active_eq_some.mp ht).1
      cases code with
      | done answer => rfl
      | look next => exact (sections_goOn hin _ _).symm
      | change f next => exact (sections_goOn hin _ _).symm

omit [DecidableEq ι] in
theorem sound_start (m : MemTable) : Sound (Guarded.start m : Guarded ι) := ⟨someInv_start, fun _ => trivial⟩

/-- **The methods of a memtable are atomic.** Any number of threads call them, and their reads and
changes of the attributes and their steps of the lock come in any order: the calls that have
ended answered what they answer one after the other, and when nobody is writing the memtable is
what they leave. -/
theorem sections_atomic (m : MemTable) (actions : List (GuardAct ι)) :
    ∃ a, Replays Section.apply m (Runs.collect guardAct answered (Guarded.start m) actions) a ∧
      ((∀ t, (Runs.run guardAct (Guarded.start m) actions).locks.pc t ≠ some .writing) →
        (Runs.run guardAct (Guarded.start m) actions).memory = a) := by
  obtain ⟨halong, hrun, hout⟩ := @Runs.simulates_run _ _ _ guardAct _ _ (act Section.body) answered ended
    Guarded.sections sectionActs Sound (Admits Section.writes) (fun _ a h => sound_guardAct h a)
    (fun _ a h => (follows h a).along) (fun _ a h => (follows h a).moves) (fun _ a h => (follows h a).answers)
    (Guarded.start m : Guarded ι) (sound_start m) actions
  have hstart : (Guarded.start m : Guarded ι).sections = ⟨m, fun _ => none⟩ := rfl
  rw [hstart] at halong hrun hout
  obtain ⟨a, hreplays, hinv⟩ := replays_run readOnly_body m halong
  rw [hrun] at hinv
  have hsound := sound_run (sound_start m) actions
  refine ⟨a, ?_, fun hcalm => ?_⟩
  · rw [← hout, ← funext run_body]
    exact hreplays
  · refine hinv.calm fun t x hx => ?_
    obtain ⟨-, hreads⟩ | ⟨hwriting, -⟩ := hsound.pc_of_active hx
    · exact hreads
    · exact absurd hwriting (hcalm t)

end Threads

end MemTable

end Logvine
