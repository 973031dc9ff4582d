import Logvine.Base.Runs

/-!
# The compaction flag

`may_start_compaction` sets `_compaction_in_progress` under `_state_lock` and starts the
thread of a compaction behind it; the compaction sets the flag again and clears it in the
end. Each `acquire` and `release`, each access to the flag and each step that may raise is
a step of its own, and the steps of any number of threads come in any order.

- `Pc.next`: the next step of a thread, at a point of a call or of a compaction;
- `Inv`: the compactions that are due to clear the flag are one if it is set and none if
  it is not;
- `truthful_iff`: the flag tells the truth in a run exactly as long as every thread of a
  compaction starts;
- `neverStarts_run`: when one does not, no compaction is ever started again.

The flag is set before the thread is made (`compaction.py`, 46 and 49–50), and nothing but
the end of that thread clears it (148–150).
-/

namespace Logvine

namespace CompactionFlag

/-- The point a thread is at: what it does next. -/
inductive Pc where
  -- `may_start_compaction`: `with self._state_lock`, the two tests, the flag is set
  | called
  | testFlag
  | testNeeded
  | setFlag
  -- the lock is released: to return, to let an exception out, to start the thread
  | leave
  | leaveRaising
  | leaveScheduled
  | start
  | returned
  | raised
  -- `compact`: the first section, the body, the section of `finally`
  | begun
  | setAgain
  | leaveSet
  | body
  | cleanUp
  | clearFlag
  | leaveCleared
  | ended
deriving DecidableEq, Repr

/-- How a step goes that is not determined: a test says no, a loop ends, something raises. -/
inductive Choice where
  | yes
  | no
  | raises
deriving DecidableEq, Repr

instance fintypePc : Fintype Pc :=
  .ofList [.called, .testFlag, .testNeeded, .setFlag, .leave, .leaveRaising, .leaveScheduled, .start, .returned, .raised,
    .begun, .setAgain, .leaveSet, .body, .cleanUp, .clearFlag, .leaveCleared, .ended] fun pc => by cases pc <;> decide

instance fintypeChoice : Fintype Choice := .ofList [.yes, .no, .raises] fun choice => by cases choice <;> decide

/-- The lock (`true`: taken) and the flag. -/
structure Shared where
  stateLock : Bool
  inProgress : Bool
deriving DecidableEq, Repr

namespace Pc

/-- The next step of a thread; one that has to wait or is through stays where it is. -/
def next (s : Shared) (choice : Choice) : Pc → Shared × Pc
  | .called => if s.stateLock then (s, .called) else ({ s with stateLock := true }, .testFlag)
  | .testFlag => (s, if s.inProgress then .leave else .testNeeded)
  | .testNeeded => (s, match choice with | .yes => .setFlag | .no => .leave | .raises => .leaveRaising)
  | .setFlag => ({ s with inProgress := true }, .leaveScheduled)
  | .leave => ({ s with stateLock := false }, .returned)
  | .leaveRaising => ({ s with stateLock := false }, .raised)
  | .leaveScheduled => ({ s with stateLock := false }, .start)
  | .start => (s, if choice = .raises then .raised else .returned)
  | .returned => (s, .returned)
  | .raised => (s, .raised)
  | .begun =>
    if choice = .raises then (s, .cleanUp)
    else if s.stateLock then (s, .begun)
    else ({ s with stateLock := true }, .setAgain)
  | .setAgain =>
    if choice = .raises then ({ s with stateLock := false }, .cleanUp) else ({ s with inProgress := true }, .leaveSet)
  | .leaveSet => ({ s with stateLock := false }, if choice = .raises then .cleanUp else .body)
  | .body => (s, if choice = .yes then .body else .cleanUp)
  | .cleanUp => if s.stateLock then (s, .cleanUp) else ({ s with stateLock := true }, .clearFlag)
  | .clearFlag => ({ s with inProgress := false }, .leaveCleared)
  | .leaveCleared => ({ s with stateLock := false }, .ended)
  | .ended => (s, .ended)

/-- `thread.start()` that does not raise starts a compaction. -/
def starts (choice : Choice) (pc : Pc) : Bool := pc = .start && choice ≠ .raises

/-- The thread has `_state_lock`. -/
def holds : Pc → Bool
  | .testFlag | .testNeeded | .setFlag | .leave | .leaveRaising | .leaveScheduled | .setAgain | .leaveSet
  | .clearFlag | .leaveCleared => true
  | _ => false

/-- The thread is about to start a compaction, or is one that has yet to clear the flag. -/
def clears : Pc → Bool
  | .leaveScheduled | .start | .begun | .setAgain | .leaveSet | .body | .cleanUp | .clearFlag => true
  | _ => false

/-- The thread has seen or made the flag clear and still has the lock. -/
def knowsClear : Pc → Bool
  | .testNeeded | .setFlag | .leaveCleared => true
  | _ => false

/-- A compaction that was scheduled and has not finished. -/
def unfinished : Pc → Bool
  | .start | .begun | .setAgain | .leaveSet | .body | .cleanUp | .clearFlag | .leaveCleared => true
  | _ => false

/-- The thread is inside `compact`. -/
def inCompact : Pc → Bool
  | .begun | .setAgain | .leaveSet | .body | .cleanUp | .clearFlag | .leaveCleared => true
  | _ => false

end Pc

/-- The shared variables and the threads: the calls of `may_start_compaction` and the
compactions, each at its point. -/
structure State where
  shared : Shared
  threads : List Pc
deriving DecidableEq, Repr

/-- A new call, or the next step of a thread. -/
inductive Action where
  | call
  | advance (thread : Nat) (choice : Choice)
deriving DecidableEq, Repr

/-- A manager without threads. -/
def init : State := ⟨⟨false, false⟩, []⟩

def step (s : State) : Action → State
  | .call => { s with threads := s.threads ++ [.called] }
  | .advance thread choice =>
    match s.threads[thread]? with
    | none => s
    | some pc =>
      { shared := (pc.next s.shared choice).1
        threads := s.threads.set thread (pc.next s.shared choice).2 ++
          if pc.starts choice then [.begun] else [] }

/-- How many threads are at a point of this kind. -/
def State.count (s : State) (p : Pc → Bool) : Nat := s.threads.countP p

/-- What the flag says is so. -/
structure Truthful (s : State) : Prop where
  /-- While nobody is in a critical section, the flag is set when one compaction has been
  scheduled and has not finished. -/
  flag : s.shared.stateLock = false → (s.shared.inProgress = true ↔ s.count Pc.unfinished = 1)
  /-- No two compactions run at the same time. -/
  single : s.count Pc.inCompact ≤ 1
  /-- When the flag is set there is a thread that will clear it. -/
  cleared : s.shared.inProgress = true → ∃ pc ∈ s.threads, pc.clears = true

/-- The action does not make a `thread.start()` raise. -/
def StartOk (s : State) (a : Action) : Prop := ∀ thread, a = .advance thread .raises → s.threads[thread]? ≠ some .start

/-! ## The invariant -/

/-- One thread has the lock when it is taken; one is to clear the flag when it is set; one
that knows the flag to be clear is right. -/
structure Inv (s : State) : Prop where
  lock : s.count Pc.holds = s.shared.stateLock.toNat
  flag : s.count Pc.clears = s.shared.inProgress.toNat
  clear : s.shared.inProgress = true → s.count Pc.knowsClear = 0

/-- What a step does to the lock. -/
theorem next_lock (s : Shared) (choice : Choice) (pc : Pc) (hholds : pc.holds = true → s.stateLock = true) :
    (pc.next s choice).2.holds.toNat + s.stateLock.toNat =
      pc.holds.toNat + (pc.next s choice).1.stateLock.toNat := by
  cases s
  revert hholds pc choice
  decide +revert

/-- What a step does to the flag, unless a start raises. -/
theorem next_flag (s : Shared) (choice : Choice) (pc : Pc) (hstart : ¬(pc = .start ∧ choice = .raises))
    (hclears : pc.clears = true → s.inProgress = true) (hknows : pc.knowsClear = true → s.inProgress = false) :
    (pc.next s choice).2.clears.toNat + (pc.starts choice).toNat + s.inProgress.toNat =
      pc.clears.toNat + (pc.next s choice).1.inProgress.toNat := by
  cases s
  revert hstart hclears hknows pc choice
  decide +revert

/-- Only the thread that has the lock sets the flag, and it knows when it is clear. -/
theorem next_clear (s : Shared) (choice : Choice) (pc : Pc)
    (hclears : pc.clears = true → s.inProgress = true) (hknows : pc.knowsClear = true → s.inProgress = false)
    (hset : (pc.next s choice).1.inProgress = true) :
    (pc.next s choice).2.knowsClear = false ∧ (s.inProgress = true ∨ pc.knowsClear = true) := by
  cases s
  revert hclears hknows hset pc choice
  decide +revert

/-- A thread that counts is counted. -/
theorem toNat_le_countP {threads : List Pc} {thread : Nat} {pc : Pc} (h : threads[thread]? = some pc)
    (p : Pc → Bool) : (p pc).toNat ≤ threads.countP p := by
  cases hp : p pc with
  | false => exact Nat.zero_le _
  | true => exact List.one_le_countP_iff.mpr ⟨pc, List.mem_of_getElem? h, hp⟩

theorem true_of_toNat_le : ∀ {b c : Bool}, b.toNat ≤ c.toNat → b = true → c = true := by decide

/-- What one step does to the number of threads at points of a kind. -/
theorem countP_advance {threads : List Pc} {thread : Nat} {pc : Pc} (h : threads[thread]? = some pc) (pc' : Pc)
    (started : List Pc) (p : Pc → Bool) :
    (threads.set thread pc' ++ started).countP p + (p pc).toNat =
      threads.countP p + (p pc').toNat + started.countP p := by
  obtain ⟨hlt, hget⟩ := List.getElem?_eq_some_iff.mp h
  have hpos := toNat_le_countP h p
  have hite : ∀ b : Bool, (if b = true then 1 else 0) = b.toNat := by decide
  rw [List.countP_append, List.countP_set hlt, hget, hite, hite]
  omega

theorem step_advance {s : State} {thread : Nat} {pc : Pc} (h : s.threads[thread]? = some pc) (choice : Choice) :
    step s (.advance thread choice) =
      { shared := (pc.next s.shared choice).1
        threads := s.threads.set thread (pc.next s.shared choice).2 ++
          if pc.starts choice then [.begun] else [] } := by
  simp only [step, h]

/-- A compaction that was just started has no lock yet, and is to clear the flag. -/
theorem countP_started (started : Bool) (p : Pc → Bool) :
    (if started then [Pc.begun] else []).countP p = started.toNat * (p .begun).toNat := by
  cases started with
  | false => exact (Nat.zero_mul _).symm
  | true =>
    rw [if_pos rfl, List.countP_singleton]
    cases p .begun <;> rfl

theorem holds_of_knowsClear : ∀ pc : Pc, pc.knowsClear = true → pc.holds = true := by decide

/-- A thread that knows the flag to be clear is the one that has the lock. -/
theorem knowsClear_le_holds (threads : List Pc) : threads.countP Pc.knowsClear ≤ threads.countP Pc.holds :=
  List.countP_mono_left fun pc _ => holds_of_knowsClear pc

theorem inv_init : Inv init := ⟨rfl, rfl, fun h => (Bool.false_ne_true h).elim⟩

/-- A new call is at a point of none of the kinds. -/
theorem count_call (s : State) {p : Pc → Bool} (hp : p .called = false) : (step s .call).count p = s.count p := by
  show (s.threads ++ [Pc.called]).countP p = _
  rw [List.countP_append, List.countP_singleton, hp]
  rfl

theorem inv_call {s : State} (h : Inv s) : Inv (step s .call) :=
  ⟨(count_call s rfl).trans h.lock, (count_call s rfl).trans h.flag,
    fun hset => (count_call s rfl).trans (h.clear hset)⟩

/-- The threads of a state under the invariant know what it says about their points. -/
theorem Inv.holds {s : State} (h : Inv s) {thread : Nat} {pc : Pc} (hpc : s.threads[thread]? = some pc) :
    pc.holds = true → s.shared.stateLock = true :=
  true_of_toNat_le ((toNat_le_countP hpc Pc.holds).trans_eq h.lock)

theorem Inv.clears {s : State} (h : Inv s) {thread : Nat} {pc : Pc} (hpc : s.threads[thread]? = some pc) :
    pc.clears = true → s.shared.inProgress = true :=
  true_of_toNat_le ((toNat_le_countP hpc Pc.clears).trans_eq h.flag)

theorem Inv.knowsClear {s : State} (h : Inv s) {thread : Nat} {pc : Pc} (hpc : s.threads[thread]? = some pc) :
    pc.knowsClear = true → s.shared.inProgress = false := by
  intro hknows
  by_contra hset
  have hnone : s.threads.countP Pc.knowsClear = 0 := h.clear (Bool.not_eq_false _ ▸ hset)
  exact List.countP_eq_zero.mp hnone pc (List.mem_of_getElem? hpc) hknows

theorem inv_advance {s : State} (h : Inv s) {thread : Nat} {choice : Choice} (hok : StartOk s (.advance thread choice)) :
    Inv (step s (.advance thread choice)) := by
  cases hpc : s.threads[thread]? with
  | none =>
    have hstep : step s (.advance thread choice) = s := by simp only [step, hpc]
    rw [hstep]
    exact h
  | some pc =>
    have hstart : ¬(pc = .start ∧ choice = .raises) := by
      rintro ⟨rfl, rfl⟩
      exact hok thread rfl hpc
    have hcount := fun p => (countP_advance hpc (pc.next s.shared choice).2 _ p).trans
      (congrArg _ (countP_started (pc.starts choice) p))
    have hlocks : s.threads.countP Pc.holds = _ := h.lock
    have hflags : s.threads.countP Pc.clears = _ := h.flag
    rw [step_advance hpc]
    refine ⟨?_, ?_, fun hafter => ?_⟩
    · have hlock := next_lock s.shared choice pc (h.holds hpc)
      have hholds := hcount Pc.holds
      simp only [show Pc.holds .begun = false from rfl, Bool.toNat_false, Nat.mul_zero] at hholds
      dsimp only [State.count]
      omega
    · have hflag := next_flag s.shared choice pc hstart (h.clears hpc) (h.knowsClear hpc)
      have hclears := hcount Pc.clears
      simp only [show Pc.clears .begun = true from rfl, Bool.toNat_true, Nat.mul_one] at hclears
      dsimp only [State.count]
      omega
    · obtain ⟨hnot, hwas⟩ := next_clear s.shared choice pc (h.clears hpc) (h.knowsClear hpc) hafter
      have hknows := hcount Pc.knowsClear
      simp only [show Pc.knowsClear .begun = false from rfl, hnot, Bool.toNat_false, Nat.mul_zero] at hknows
      dsimp only [State.count]
      -- the flag was set before, or this thread was the only one to know that it was clear
      rcases hwas with hwas | hwas
      · have hnone : s.threads.countP Pc.knowsClear = 0 := h.clear hwas
        omega
      · have hle := knowsClear_le_holds s.threads
        have hone : s.shared.stateLock.toNat ≤ 1 := Bool.toNat_le _
        rw [hwas, Bool.toNat_true] at hknows
        omega

theorem inv_step {s : State} (h : Inv s) {a : Action} (hok : StartOk s a) : Inv (step s a) := by
  cases a with
  | call => exact inv_call h
  | advance thread choice => exact inv_advance h hok

/-! ## The flag tells the truth -/

theorem unfinished_of_not_holds : ∀ pc : Pc, pc.holds = false → pc.unfinished = pc.clears := by decide

theorem inCompact_le : ∀ pc : Pc, pc.inCompact = true → pc.clears = true ∨ pc.knowsClear = true := by decide

/-- The flag is set when one thread is to clear it. -/
theorem Inv.inProgress_iff {s : State} (h : Inv s) : s.shared.inProgress = true ↔ s.count Pc.clears = 1 := by
  rw [h.flag]
  cases s.shared.inProgress <;> decide

/-- Compactions are counted as ones to clear the flag, or behind that as the one that has
the lock. -/
theorem count_inCompact_le (s : State) : s.count Pc.inCompact ≤ s.count Pc.clears + s.count Pc.knowsClear := by
  unfold State.count
  induction s.threads with
  | nil => exact Nat.zero_le _
  | cons pc threads ih =>
    rw [List.countP_cons, List.countP_cons, List.countP_cons]
    by_cases hin : pc.inCompact = true
    · rw [if_pos hin]
      rcases inCompact_le pc hin with hclears | hknows
      · rw [if_pos hclears]
        omega
      · rw [if_pos hknows]
        omega
    · rw [if_neg hin]
      omega

theorem Inv.truthful {s : State} (h : Inv s) : Truthful s := by
  refine ⟨fun hfree => ?_, ?_, fun hset => ?_⟩
  · have hnobody : ∀ pc ∈ s.threads, pc.holds = false := by
      have hnone : s.threads.countP Pc.holds = 0 := by
        have hlock := h.lock
        rw [hfree] at hlock
        exact hlock
      exact fun pc hpc => by simpa using List.countP_eq_zero.mp hnone pc hpc
    have hsame : s.count Pc.unfinished = s.count Pc.clears :=
      List.countP_congr fun pc hpc => by rw [unfinished_of_not_holds pc (hnobody pc hpc)]
    rw [hsame]
    exact h.inProgress_iff
  · have hle := count_inCompact_le s
    cases hset : s.shared.inProgress with
    | true =>
      have hone := h.inProgress_iff.mp hset
      have hnone := h.clear hset
      omega
    | false =>
      have hknows : s.count Pc.knowsClear ≤ s.count Pc.holds := knowsClear_le_holds s.threads
      have hflag := h.flag
      have hlock := h.lock
      have hone : s.shared.stateLock.toNat ≤ 1 := Bool.toNat_le _
      rw [hset, Bool.toNat_false] at hflag
      omega
  · exact List.one_le_countP_iff.mp (Nat.le_of_eq (h.inProgress_iff.mp hset).symm)

/-! ## A start that raised -/

/-- The flag is set, no thread is to clear it, and none can set it anew. -/
structure Stuck (s : State) : Prop where
  inProgress : s.shared.inProgress = true
  clears : s.count Pc.clears = 0
  knowsClear : s.count Pc.knowsClear = 0

theorem Stuck.not_truthful {s : State} (h : Stuck s) : ¬Truthful s := by
  intro htruthful
  obtain ⟨pc, hpc, hclears⟩ := htruthful.cleared h.inProgress
  exact List.countP_eq_zero.mp h.clears pc hpc hclears

/-- A step between points that are not of a kind does not change how many are. -/
theorem count_advance_of_neither {s : State} {thread : Nat} {pc : Pc} (hpc : s.threads[thread]? = some pc)
    {choice : Choice} (hstarts : pc.starts choice = false) {p : Pc → Bool} (hp : p pc = false)
    (hp' : p (pc.next s.shared choice).2 = false) : (step s (.advance thread choice)).count p = s.count p := by
  have hcount := countP_advance hpc (pc.next s.shared choice).2 (if pc.starts choice then [.begun] else []) p
  rw [countP_started, hp, hp', hstarts, Bool.toNat_false, Nat.zero_mul] at hcount
  rw [step_advance hpc, State.count, hstarts]
  exact hcount

/-- The thread whose start raised was the one that was to clear the flag. -/
theorem stuck_of_raises {s : State} (h : Inv s) {thread : Nat} (hpc : s.threads[thread]? = some .start) :
    Stuck (step s (.advance thread .raises)) := by
  have hset : s.shared.inProgress = true := h.clears hpc rfl
  have hone : s.threads.countP Pc.clears = 1 := h.inProgress_iff.mp hset
  refine ⟨?_, ?_, (count_advance_of_neither hpc rfl rfl rfl).trans (h.clear hset)⟩
  · rw [step_advance hpc]
    exact hset
  · have hclears := countP_advance hpc .raised [] Pc.clears
    simp only [show Pc.clears .start = true from rfl, show Pc.clears .raised = false from rfl, Bool.toNat_true,
      Bool.toNat_false, List.countP_nil] at hclears
    rw [step_advance hpc]
    show (s.threads.set thread .raised ++ []).countP Pc.clears = 0
    omega

/-- Threads that neither clear the flag nor know it to be clear leave it set. -/
theorem next_stuck (s : Shared) (choice : Choice) (pc : Pc) (hset : s.inProgress = true) (hclears : pc.clears = false)
    (hknows : pc.knowsClear = false) :
    (pc.next s choice).1.inProgress = true ∧ (pc.next s choice).2.clears = false ∧
      (pc.next s choice).2.knowsClear = false ∧ pc.starts choice = false := by
  cases s
  revert hset hclears hknows pc choice
  decide +revert

theorem stuck_step {s : State} (h : Stuck s) (a : Action) : Stuck (step s a) := by
  cases a with
  | call => exact ⟨h.inProgress, (count_call s rfl).trans h.clears, (count_call s rfl).trans h.knowsClear⟩
  | advance thread choice =>
    cases hpc : s.threads[thread]? with
    | none =>
      have hstep : step s (.advance thread choice) = s := by simp only [step, hpc]
      rw [hstep]
      exact h
    | some pc =>
      have hmem := List.mem_of_getElem? hpc
      have hclears : pc.clears = false := by simpa using List.countP_eq_zero.mp h.clears pc hmem
      have hknows : pc.knowsClear = false := by simpa using List.countP_eq_zero.mp h.knowsClear pc hmem
      obtain ⟨hset', hclears', hknows', hstarts⟩ := next_stuck s.shared choice pc h.inProgress hclears hknows
      refine ⟨?_, ?_, ?_⟩
      · rw [step_advance hpc]
        exact hset'
      · exact (count_advance_of_neither hpc hstarts hclears hclears').trans h.clears
      · exact (count_advance_of_neither hpc hstarts hknows hknows').trans h.knowsClear

/-- **A compaction thread that does not start disables compaction for good**: whatever
happens afterwards, the flag stays set and no thread is about to start. -/
theorem neverStarts_run {s : State} (h : Inv s) {thread : Nat} (hpc : s.threads[thread]? = some .start)
    (actions : List Action) : Stuck (Runs.run step (step s (.advance thread .raises)) actions) :=
  @Runs.run_invariant _ _ step Stuck (fun _ _ => True) (fun _ a hstuck _ => stuck_step hstuck a) _ actions
    (stuck_of_raises h hpc) (Runs.along_of_forall (fun _ _ => trivial) _)

/-! ## Runs -/

/-- **When the compaction flag tells the truth**: in a run of any calls and the compactions
they start, in any order, after every step, exactly as long as no start of a thread
raises. -/
theorem truthful_iff (actions : List Action) :
    Runs.Along step (fun s a => Truthful (step s a)) init actions ↔ Runs.Along step StartOk init actions := by
  have hall : ∀ (actions : List Action) (s : State), Inv s →
      (Runs.Along step (fun s a => Truthful (step s a)) s actions ↔ Runs.Along step StartOk s actions) := by
    intro actions
    induction actions with
    | nil => exact fun _ _ => Iff.rfl
    | cons a actions ih =>
      intro s h
      have hstep : Truthful (step s a) ↔ StartOk s a := by
        constructor
        · rintro htruthful thread rfl hpc
          exact (stuck_of_raises h hpc).not_truthful htruthful
        · exact fun hok => (inv_step h hok).truthful
      rw [Runs.Along, Runs.Along, hstep]
      exact and_congr_right fun hok => ih (step s a) (inv_step h hok)
  exact hall actions init inv_init

/-- A call that finds a compaction needed, whose thread does not start. -/
theorem truthful_fails :
    ¬ ∀ actions : List Action, Runs.Along step (fun s a => Truthful (step s a)) init actions := by
  intro h
  have hrun := h [.call, .advance 0 .yes, .advance 0 .yes, .advance 0 .yes, .advance 0 .yes, .advance 0 .yes,
    .advance 0 .raises]
  obtain ⟨pc, hpc, hclears⟩ := hrun.2.2.2.2.2.2.1.cleared rfl
  obtain rfl : pc = .raised := List.mem_singleton.mp hpc
  exact absurd hclears (by decide)

end CompactionFlag

end Logvine
