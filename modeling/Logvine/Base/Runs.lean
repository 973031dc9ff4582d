import Mathlib

/-!
# Runs of a system of actions

A system is a function that takes a state and an action to the next state; an action
that is not possible leaves the state as it is. A run is a list of actions.

- `Along`: a property of every action of a run and the state it is taken in;
- `collect`: what the actions of a run put out, one after the other;
- `run_invariant`, `run_collect_invariant`: what every step keeps holds in the end,
  also when it speaks about what was put out so far;
- `simulates_run`: from steps that another system can follow to runs.

A run is a list and not a relation, so that it can be evaluated, cut at any place
(`run_append`), and speak of what its actions put out.
-/

namespace Logvine

namespace Runs

universe u v w

variable {σ : Type u} {α : Type v} {β : Type w} (step : σ → α → σ)

/-- The state after some actions. -/
def run (s : σ) (as : List α) : σ := as.foldl step s

/-- Each action has the property in the state it is taken in. -/
def Along (P : σ → α → Prop) : σ → List α → Prop
  | _, [] => True
  | s, a :: as => P s a ∧ Along P (step s a) as

/-- What the actions of a run put out. -/
def collect (out : σ → α → List β) : σ → List α → List β
  | _, [] => []
  | s, a :: as => out s a ++ collect out (step s a) as

@[simp] theorem run_nil (s : σ) : run step s [] = s := rfl

@[simp] theorem run_cons (s : σ) (a : α) (as : List α) :
    run step s (a :: as) = run step (step s a) as := rfl

/-- A run is its first part followed by its second. -/
theorem run_append (s : σ) (as bs : List α) : run step s (as ++ bs) = run step (run step s as) bs :=
  List.foldl_append

/-- What a run collects is what its two parts do. -/
theorem collect_append (out : σ → α → List β) (s : σ) (as bs : List α) :
    collect step out s (as ++ bs) = collect step out s as ++ collect step out (run step s as) bs := by
  induction as generalizing s with
  | nil => rfl
  | cons a as ih => rw [List.cons_append, collect, collect, ih, List.append_assoc, run_cons]

/-- The state after one action more. -/
theorem run_take_succ (s : σ) {as : List α} {n : Nat} (h : n < as.length) :
    run step s (as.take (n + 1)) = step (run step s (as.take n)) as[n] := by
  rw [List.take_add_one, List.getElem?_eq_getElem h, run_append]
  rfl

instance decidableAlong {P : σ → α → Prop} [∀ s a, Decidable (P s a)] (s : σ) (as : List α) :
    Decidable (Along step P s as) :=
  match as with
  | [] => .isTrue trivial
  | a :: as => @instDecidableAnd _ _ _ (decidableAlong (step s a) as)

variable {step}

/-- What holds along a run holds along both parts. -/
theorem along_append {P : σ → α → Prop} {s : σ} {as bs : List α} :
    Along step P s (as ++ bs) ↔ Along step P s as ∧ Along step P (run step s as) bs := by
  induction as generalizing s with
  | nil => exact (and_iff_right trivial).symm
  | cons a as ih =>
    rw [List.cons_append, Along, Along, ih, run_cons, and_assoc]

/-- Two conditions along a run are one. -/
theorem Along.and {P Q : σ → α → Prop} {s : σ} {as : List α} (hP : Along step P s as)
    (hQ : Along step Q s as) : Along step (fun s a => P s a ∧ Q s a) s as := by
  induction as generalizing s with
  | nil => trivial
  | cons a as ih => exact ⟨⟨hP.1, hQ.1⟩, ih hP.2 hQ.2⟩

/-- A property of the actions alone. -/
theorem along_of_forall {P : α → Prop} {as : List α} (h : ∀ a ∈ as, P a) (s : σ) :
    Along step (fun _ a => P a) s as := by
  induction as generalizing s with
  | nil => trivial
  | cons a as ih => exact ⟨h a List.mem_cons_self, ih (fun b hb => h b (List.mem_cons_of_mem _ hb)) _⟩

/-- What holds along a run holds along its beginning. -/
theorem Along.take {P : σ → α → Prop} {s : σ} {as : List α} (h : Along step P s as) (n : Nat) :
    Along step P s (as.take n) := by
  rw [← List.take_append_drop n as] at h
  exact (along_append.mp h).1

/-- The property at one of the actions. -/
theorem Along.at {P : σ → α → Prop} {s : σ} {as : List α} (h : Along step P s as) {n : Nat}
    (hn : n < as.length) : P (run step s (as.take n)) as[n] := by
  rw [← List.take_append_drop n as, List.drop_eq_getElem_cons hn] at h
  exact (along_append.mp h).2.1

/-- **What every step keeps** holds after the run. -/
theorem run_invariant {Inv : σ → Prop} {P : σ → α → Prop}
    (hstep : ∀ s a, Inv s → P s a → Inv (step s a)) {s : σ} {as : List α} (h : Inv s)
    (halong : Along step P s as) : Inv (run step s as) := by
  induction as generalizing s with
  | nil => exact h
  | cons a as ih => exact ih (hstep s a h halong.1) halong.2

/-- The same for a property that also speaks about what was put out so far. -/
theorem run_collect_invariant {out : σ → α → List β} {Inv : σ → List β → Prop} {P : σ → α → Prop}
    (hstep : ∀ s a done, Inv s done → P s a → Inv (step s a) (done ++ out s a)) {s : σ} {as : List α}
    {done : List β} (h : Inv s done) (halong : Along step P s as) :
    Inv (run step s as) (done ++ collect step out s as) := by
  induction as generalizing s done with
  | nil =>
    rw [collect, List.append_nil]
    exact h
  | cons a as ih =>
    rw [collect, ← List.append_assoc]
    exact ih (hstep s a done h halong.1) halong.2

/-! ## Simulation -/

universe u' v'

/-- A system whose steps are each some steps of another one: its runs are runs of the other,
which put out the same. -/
theorem simulates_run {σ' : Type u'} {α' : Type v'} {step' : σ' → α' → σ'} {out : σ → α → List β}
    {out' : σ' → α' → List β} {abs : σ → σ'} {acts : σ → α → List α'} {Inv : σ → Prop} {P : σ' → α' → Prop}
    (hinv : ∀ s a, Inv s → Inv (step s a)) (halong : ∀ s a, Inv s → Along step' P (abs s) (acts s a))
    (hstep : ∀ s a, Inv s → run step' (abs s) (acts s a) = abs (step s a))
    (hout : ∀ s a, Inv s → collect step' out' (abs s) (acts s a) = out s a) {s : σ} (h : Inv s) (as : List α) :
    Along step' P (abs s) (collect step acts s as) ∧
      run step' (abs s) (collect step acts s as) = abs (run step s as) ∧
      collect step' out' (abs s) (collect step acts s as) = collect step out s as := by
  induction as generalizing s with
  | nil => exact ⟨trivial, rfl, rfl⟩
  | cons a as ih =>
    obtain ⟨ihalong, ihrun, ihout⟩ := ih (hinv s a h)
    refine ⟨along_append.mpr ⟨halong s a h, ?_⟩, ?_, ?_⟩
    · rw [hstep s a h]
      exact ihalong
    · rw [collect, run_append, hstep s a h, ihrun, run_cons]
    · rw [collect, collect_append, hout s a h, hstep s a h, ihout, collect]

end Runs

end Logvine
