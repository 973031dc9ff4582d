import Logvine.Storage.MemTableSections

/-!
# Calls on a memtable come to an end

While some thread is inside, some thread can go on (`exists_next`); with its section as far as
it is, it takes it to its end and moves on in the lock, nearer to its return.

- `LockPc.rank`: how many steps of the lock a thread has still to do, at most;
- `finish_section`: the accesses that are left of a section can be done;
- `sections_complete`: whatever the threads have done so far, all their calls can return.

The first reader waits for the writer's lock while it has `_read_lock` (`memtable.py`,
43–47), and so keeps all other readers out, and from leaving. This does no harm because a
writer leaves without `_read_lock` (61–63).
-/

namespace Logvine

open LockOrder Sections

namespace MemTable

/-- How far a thread is from its return. -/
def LockPc.rank : Option LockPc → Nat
  | some .acquireRead => 10
  | some .countIn => 9
  | some .testFirst => 8
  | some .blockWriters => 7
  | some .admitReaders => 6
  | some .reading => 5
  | some .countOut => 4
  | some .testLast => 3
  | some .admitWriters | some .acquireWrite => 2
  | some .leave | some .writing => 1
  | some .raised | none => 0

theorem rank_step {s s' : Locks} {p : LockPc} {p' : Option LockPc} (h : s.step p = some (s', p')) :
    LockPc.rank p' < LockPc.rank (some p) := by
  cases p with
  | acquireRead | blockWriters | reading | acquireWrite =>
    rw [Locks.step] at h
    split at h
    · cases h
    · cases h
      decide
  | admitReaders | admitWriters | leave | writing =>
    rw [Locks.step] at h
    split at h <;> cases h <;> decide
  | testFirst | testLast =>
    cases h
    split <;> decide
  | countIn | countOut =>
    cases h
    decide
  | raised => cases h

section Threads

variable {ι : Type} [DecidableEq ι]

omit [DecidableEq ι] in
/-- It begins no call. -/
def GuardAct.GoesOn : GuardAct ι → Prop
  | .call _ _ => False
  | .lock _ | .access _ => True

/-- What is left of a section after an access. -/
theorem active_goOn {g : Guarded ι} {t : ι} (hin : inside (g.locks.pc t) = true)
    (memory : MemTable) (x : Section × Code MemTable Answer) :
    Guarded.active { g with memory, calls := Function.update g.calls t (some x) } t = some x :=
  active_eq_some.mpr ⟨hin, Function.update_self ..⟩

/-- **A section can be done** to its end, by accesses of its thread alone. -/
theorem finish_section {g : Guarded ι} {t : ι} {sec : Section} {code : Code MemTable Answer}
    (ht : g.active t = some (sec, code)) : ∃ more : List (GuardAct ι), (∀ a ∈ more, a.GoesOn) ∧
      (Runs.run guardAct g more).locks = g.locks ∧
      ∃ answer, (Runs.run guardAct g more).active t = some (sec, .done answer) := by
  have hin := (active_eq_some.mp ht).1
  induction code generalizing g with
  | done answer => exact ⟨[], fun _ ha => (by cases ha), rfl, answer, ht⟩
  | look next ih =>
    have hact : guardAct g (.access t) =
        { g with calls := Function.update g.calls t (some (sec, next g.memory)) } := by rw [guardAct, ht]
    obtain ⟨more, hmore, hlocks, hdone⟩ := ih g.memory (active_goOn hin g.memory (sec, next g.memory)) hin
    refine ⟨.access t :: more, List.forall_mem_cons.mpr ⟨trivial, hmore⟩, ?_⟩
    rw [Runs.run_cons, hact]
    exact ⟨hlocks, hdone⟩
  | change f next ih =>
    have hact : guardAct g (.access t) =
        { g with memory := f g.memory, calls := Function.update g.calls t (some (sec, next)) } := by
      rw [guardAct, ht]
    obtain ⟨more, hmore, hlocks, hdone⟩ := ih (active_goOn hin (f g.memory) (sec, next)) hin
    refine ⟨.access t :: more, List.forall_mem_cons.mpr ⟨trivial, hmore⟩, ?_⟩
    rw [Runs.run_cons, hact]
    exact ⟨hlocks, hdone⟩

/-- A thread that the lock lets go on can do so, after the rest of its section. -/
theorem exists_moves {g : Guarded ι} {t : ι} {locks : Shared Locks LockPc ι}
    (hnext : g.locks.next Locks.step t = some locks) : ∃ more : List (GuardAct ι), (∀ a ∈ more, a.GoesOn) ∧
      (Runs.run guardAct g more).locks = locks := by
  have hlock : ∀ a ∈ [GuardAct.lock t], a.GoesOn := List.forall_mem_singleton.mpr trivial
  cases ht : g.active t with
  | none =>
    refine ⟨[.lock t], hlock, ?_⟩
    rw [Runs.run_cons, Runs.run_nil, guardAct, Guarded.nextLocks, ht, hnext]
    rfl
  | some x =>
    obtain ⟨more, hmore, hlocks, answer, hdone⟩ := finish_section ht
    refine ⟨more ++ [.lock t], List.forall_mem_append.mpr ⟨hmore, hlock⟩, ?_⟩
    rw [Runs.run_append, Runs.run_cons, Runs.run_nil, guardAct, Guarded.nextLocks, hdone, hlocks, hnext]
    rfl

/-- From a state of finitely many threads inside. -/
theorem complete_of_sound {callers : Finset ι} {g : Guarded ι} (h : Sound g)
    (hcallers : ∀ t ∉ callers, g.locks.pc t = none) : ∃ more : List (GuardAct ι), (∀ a ∈ more, a.GoesOn) ∧
      ∀ t, (Runs.run guardAct g more).locks.pc t = none := by
  -- by what all of them have still to do
  generalize hn : (∑ t ∈ callers, LockPc.rank (g.locks.pc t)) = n
  induction n using Nat.strong_induction_on generalizing g with
  | _ n ih =>
    by_cases hall : ∀ t, g.locks.pc t = none
    · exact ⟨[], fun _ ha => (by cases ha), hall⟩
    · obtain ⟨t, ht⟩ := not_forall.mp hall
      obtain ⟨u, hu⟩ := safe.progress h.locks ht
      obtain ⟨locks, hlocks⟩ := Option.isSome_iff_exists.mp hu
      obtain ⟨first, hfirst, hmoved⟩ := exists_moves hlocks
      obtain ⟨p, state, p', hp, hstep, rfl⟩ := Shared.next_eq_some.mp hlocks
      have hpc : ∀ v, (Runs.run guardAct g first).locks.pc v = if v = u then p' else g.locks.pc v := by
        intro v
        rw [hmoved]
        exact Function.update_apply ..
      have hmem : u ∈ callers := by
        by_contra hnot
        rw [hcallers u hnot] at hp
        cases hp
      have hrank := rank_step hstep
      have hless : (∑ v ∈ callers, LockPc.rank ((Runs.run guardAct g first).locks.pc v)) < n := by
        rw [← hn]
        refine Finset.sum_lt_sum (fun v _ => ?_) ⟨u, hmem, ?_⟩
        · rw [hpc]
          split
          · next hv =>
            rw [hv, hp]
            exact Nat.le_of_lt hrank
          · exact Nat.le_refl _
        · rw [hpc, if_pos rfl, hp]
          exact hrank
      have houtside : ∀ v ∉ callers, (Runs.run guardAct g first).locks.pc v = none := by
        intro v hv
        have hvu : v ≠ u := fun heq => hv (heq ▸ hmem)
        rw [hpc, if_neg hvu]
        exact hcallers v hv
      obtain ⟨rest, hrest, hnone⟩ := ih _ hless (sound_run h first) houtside rfl
      refine ⟨first ++ rest, List.forall_mem_append.mpr ⟨hfirst, hrest⟩, fun v => ?_⟩
      rw [Runs.run_append]
      exact hnone v

/-- Only threads that have called are inside. -/
theorem exists_callers {g : Guarded ι} (h : ∃ callers : Finset ι, ∀ t ∉ callers, g.locks.pc t = none)
    (a : GuardAct ι) : ∃ callers : Finset ι, ∀ t ∉ callers, (guardAct g a).locks.pc t = none := by
  obtain ⟨callers, hcallers⟩ := h
  cases a with
  | call t sec =>
    refine ⟨insert t callers, fun u hu => ?_⟩
    obtain ⟨hut, hu⟩ := not_or.mp fun hor => hu (Finset.mem_insert.mpr hor)
    rw [guardAct]
    split
    · show Function.update g.locks.pc t _ u = none
      rw [Function.update_of_ne hut]
      exact hcallers u hu
    · exact hcallers u hu
  | lock t =>
    refine ⟨callers, fun u hu => ?_⟩
    rw [guardAct]
    cases hnext : g.nextLocks t with
    | none => exact hcallers u hu
    | some locks =>
      obtain ⟨p, state, p', hp, -, rfl⟩ := Shared.next_eq_some.mp (nextLocks_eq_some hnext).1
      have hut : u ≠ t := by
        rintro rfl
        rw [hcallers u hu] at hp
        cases hp
      show Function.update g.locks.pc t p' u = none
      rw [Function.update_of_ne hut]
      exact hcallers u hu
  | access t =>
    refine ⟨callers, fun u hu => ?_⟩
    rw [guardAct]
    split <;> exact hcallers u hu

/-- **Every call can return**: whatever any number of threads have called and however far they
have come, they need not wait for each other forever. -/
theorem sections_complete (m : MemTable) (actions : List (GuardAct ι)) :
    ∃ more : List (GuardAct ι), (∀ a ∈ more, a.GoesOn) ∧
      ∀ t, (Runs.run guardAct (Guarded.start m) (actions ++ more)).locks.pc t = none := by
  have hcallers := @Runs.run_invariant _ _ guardAct
    (fun g : Guarded ι => ∃ callers : Finset ι, ∀ t ∉ callers, g.locks.pc t = none) (fun _ _ => True)
    (fun _ a h _ => exists_callers h a) (Guarded.start m) actions ⟨∅, fun _ _ => rfl⟩
    (Runs.along_of_forall (fun _ _ => trivial) _)
  obtain ⟨callers, hcallers⟩ := hcallers
  obtain ⟨more, hmore, hnone⟩ := complete_of_sound (sound_run (sound_start m) actions) hcallers
  refine ⟨more, hmore, fun t => ?_⟩
  rw [Runs.run_append]
  exact hnone t

end Threads

end MemTable

end Logvine
