import Logvine.Base.Runs

/-!
# Critical sections

Sections of code on a shared memory, each made of single reads and changes. Any number of
threads run them, their accesses in any order, as long as a section that changes the memory is
alone in it.

- `Code`: a section, as a monad; `Code.run` executes it at one moment;
- `Code.ReadOnly`: it changes nothing;
- `act`: the steps of the threads: one begins a section, accesses the memory, or ends its
  section and has the result;
- `Replays`: a history of sections executed one after the other;
- `replays_run`: the sections that have ended replay in the order they ended, with the results
  they had, and when no changing section is under way the memory is what they leave.
-/

namespace Logvine

namespace Sections

universe u v w

/-! ## Sections -/

/-- A section: what is read of the memory decides how it goes on. -/
inductive Code (σ : Type u) (ρ : Type v) where
  | done (result : ρ)
  | look (next : σ → Code σ ρ)
  | change (f : σ → σ) (next : Code σ ρ)

namespace Code

variable {σ : Type u} {ρ τ : Type v}

/-- The section executed at one moment. -/
def run : Code σ ρ → σ → σ × ρ
  | .done result, s => (s, result)
  | .look next, s => (next s).run s
  | .change f next, s => next.run (f s)

/-- One section after the other. -/
def andThen : Code σ ρ → (ρ → Code σ τ) → Code σ τ
  | .done result, k => k result
  | .look next, k => .look fun s => (next s).andThen k
  | .change f next, k => .change f (next.andThen k)

instance : Monad (Code σ) where
  pure := .done
  bind := andThen

/-- One value that is read. -/
def read (f : σ → ρ) : Code σ ρ := .look fun s => .done (f s)

/-- One change. -/
def modify (f : σ → σ) : Code σ PUnit := .change f (.done ⟨⟩)

@[simp] theorem run_pure (result : ρ) (s : σ) : (pure result : Code σ ρ).run s = (s, result) := rfl

@[simp] theorem run_read (f : σ → ρ) (s : σ) : (read f).run s = (s, f s) := rfl

@[simp] theorem run_modify (f : σ → σ) (s : σ) : (modify f : Code σ PUnit.{v + 1}).run s = (f s, ⟨⟩) := rfl

/-- Code runs one part after the other. -/
@[simp] theorem run_bind (c : Code σ ρ) (k : ρ → Code σ τ) (s : σ) :
    (c >>= k).run s = (k (c.run s).2).run (c.run s).1 := by
  show (c.andThen k).run s = _
  induction c generalizing s with
  | done result => rfl
  | look next ih => exact ih s s
  | change f next ih => exact ih (f s)

/-- The section changes nothing. -/
def ReadOnly : Code σ ρ → Prop
  | .done _ => True
  | .look next => ∀ s, (next s).ReadOnly
  | .change _ _ => False

theorem readOnly_pure (result : ρ) : (pure result : Code σ ρ).ReadOnly := trivial

theorem readOnly_read (f : σ → ρ) : (read f).ReadOnly := fun _ => trivial

/-- Code made of parts that write nothing writes nothing. -/
theorem ReadOnly.bind {c : Code σ ρ} (h : c.ReadOnly) {k : ρ → Code σ τ} (hk : ∀ result, (k result).ReadOnly) :
    (c >>= k).ReadOnly := by
  show (c.andThen k).ReadOnly
  induction c with
  | done result => exact hk result
  | look next ih => exact fun s => ih s (h s)
  | change f next => exact h.elim

/-- Nor does a loop whose body writes nothing. -/
theorem readOnly_foldlM {α : Type w} {f : ρ → α → Code σ ρ} (h : ∀ b x, (f b x).ReadOnly) (xs : List α) (b : ρ) :
    (xs.foldlM f b).ReadOnly := by
  induction xs generalizing b with
  | nil => exact readOnly_pure b
  | cons x xs ih =>
    rw [List.foldlM_cons]
    exact (h b x).bind ih

end Code

/-! ## Threads -/

/-- The shared memory, and the calls under way with what is left of their sections. -/
structure Config (σ : Type u) (ρ : Type v) (κ : Type w) (ι : Type) where
  memory : σ
  active : ι → Option (κ × Code σ ρ)

/-- What a thread does next. -/
inductive Action (κ : Type w) (ι : Type) where
  | enter (t : ι) (call : κ)
  | access (t : ι)
  | leave (t : ι)

section Threads

variable {σ : Type u} {ρ : Type v} {κ : Type w} {ι : Type} [DecidableEq ι]

/-- The thread has this to do. -/
def Config.moved (c : Config σ ρ κ ι) (t : ι) (memory : σ) (x : Option (κ × Code σ ρ)) : Config σ ρ κ ι :=
  ⟨memory, Function.update c.active t x⟩

variable (body : κ → Code σ ρ) (writes : κ → Bool)

/-- A step; one that is not possible changes nothing. -/
def act (c : Config σ ρ κ ι) : Action κ ι → Config σ ρ κ ι
  | .enter t call =>
    match c.active t with
    | none => c.moved t c.memory (some (call, body call))
    | some _ => c
  | .access t =>
    match c.active t with
    | some (call, .look next) => c.moved t c.memory (some (call, next c.memory))
    | some (call, .change f next) => c.moved t (f c.memory) (some (call, next))
    | _ => c
  | .leave t =>
    match c.active t with
    | some (_, .done _) => c.moved t c.memory none
    | _ => c

omit [DecidableEq ι] in
/-- A call that ends, with its result. -/
def ended (c : Config σ ρ κ ι) : Action κ ι → List (κ × ρ)
  | .leave t =>
    match c.active t with
    | some (call, .done result) => [(call, result)]
    | _ => []
  | .enter _ _ | .access _ => []

omit [DecidableEq ι] in
/-- No section begins beside one that changes the memory, and one that does begins alone. -/
def Admits (c : Config σ ρ κ ι) : Action κ ι → Prop
  | .enter _ call => ∀ u x, c.active u = some x → writes call = false ∧ writes x.1 = false
  | _ => True

/-- The history of some calls, each executed at one moment on what those before it have left. -/
def Replays (apply : κ → σ → σ × ρ) : σ → List (κ × ρ) → σ → Prop
  | s, [], s' => s' = s
  | s, (call, result) :: rest, s' => (apply call s).2 = result ∧ Replays apply (apply call s).1 rest s'

/-- One call more: it is applied to the state that the calls before it left. -/
theorem Replays.append {apply : κ → σ → σ × ρ} {s s' : σ} {history : List (κ × ρ)} {call : κ}
    (h : Replays apply s history s') : Replays apply s (history ++ [(call, (apply call s').2)]) (apply call s').1 := by
  induction history generalizing s with
  | nil =>
    obtain rfl : s' = s := h
    exact ⟨rfl, rfl⟩
  | cons x rest ih => exact ⟨h.1, ih h.2⟩

/-- What holds at every moment, for the memory `a` that the sections leave which have ended. -/
structure Inv (c : Config σ ρ κ ι) (a : σ) : Prop where
  remaining : ∀ t call code, c.active t = some (call, code) → code.run c.memory = (body call).run a
  reads : ∀ t call code, c.active t = some (call, code) → writes call = false → code.ReadOnly
  alone : ∀ t u x y, c.active t = some x → writes x.1 = true → c.active u = some y → t = u
  calm : (∀ t x, c.active t = some x → writes x.1 = false) → c.memory = a

variable {body writes} {c : Config σ ρ κ ι} {a : σ} {t : ι}

omit [DecidableEq ι] in
/-- Nobody has entered: the memory is the state that the calls so far have left. -/
theorem inv_start (s : σ) : Inv body writes (⟨s, fun _ => none⟩ : Config σ ρ κ ι) s :=
  ⟨fun _ _ _ h => (by cases h), fun _ _ _ h => (by cases h), fun _ _ _ _ h => (by cases h), fun _ => rfl⟩

omit [DecidableEq ι] in
/-- A section that changes the memory is the only one. -/
theorem Inv.others (h : Inv body writes c a) {x : κ × Code σ ρ} (ht : c.active t = some x)
    (hw : writes x.1 = true) {u : ι} (hu : u ≠ t) : c.active u = none := by
  by_contra hsome
  obtain ⟨y, hy⟩ := Option.ne_none_iff_exists'.mp hsome
  exact hu (h.alone t u x y ht hw hy).symm

/-- Only the thread that moves changes what it is doing. -/
theorem active_moved (c : Config σ ρ κ ι) (t : ι) (memory : σ) (x : Option (κ × Code σ ρ)) (u : ι) :
    (c.moved t memory x).active u = if u = t then x else c.active u := Function.update_apply ..

/-- Entering a section changes no memory; the locks say with whom it can overlap. -/
theorem inv_enter (h : Inv body writes c a) (hreads : ∀ call, writes call = false → (body call).ReadOnly) {call : κ}
    (hadmits : Admits writes c (.enter t call)) :
    Inv body writes (c.moved t c.memory (some (call, body call))) a := by
  have hmemory : c.memory = a := h.calm fun u x hu => (hadmits u x hu).2
  refine ⟨fun u call' code hu => ?_, fun u call' code hu => ?_, fun u u' x y hu hw hu' => ?_, fun _ => hmemory⟩
  · rw [active_moved] at hu
    split at hu
    · cases hu
      exact congrArg (body call).run hmemory
    · exact h.remaining u call' code hu
  · rw [active_moved] at hu
    split at hu
    · cases hu
      exact hreads call
    · exact h.reads u call' code hu
  -- the new section changes nothing if there is another one
  · rw [active_moved] at hu hu'
    split at hu <;> split at hu'
    · next hut hut' => exact hut.trans hut'.symm
    · cases hu
      rw [(hadmits u' y hu').1] at hw
      cases hw
    · rw [(hadmits u x hu).2] at hw
      cases hw
    · exact h.alone u u' x y hu hw hu'

/-- What a look shows is what the memory is. -/
theorem inv_look (h : Inv body writes c a) {call : κ} {next : σ → Code σ ρ} (ht : c.active t = some (call, .look next)) :
    Inv body writes (c.moved t c.memory (some (call, next c.memory))) a := by
  have hfirst : ∀ u x, (c.moved t c.memory (some (call, next c.memory))).active u = some x →
      ∃ y, c.active u = some y ∧ y.1 = x.1 := by
    intro u x hu
    rw [active_moved] at hu
    split at hu
    · next hut =>
      cases hu
      exact ⟨(call, .look next), by rw [hut]; exact ht, rfl⟩
    · exact ⟨x, hu, rfl⟩
  refine ⟨fun u call' code hu => ?_, fun u call' code hu hw => ?_, fun u u' x y hu hw hu' => ?_, fun hcalm => ?_⟩
  · rw [active_moved] at hu
    split at hu
    · cases hu
      exact h.remaining t call (.look next) ht
    · exact h.remaining u call' code hu
  · rw [active_moved] at hu
    split at hu
    · cases hu
      exact h.reads t call (.look next) ht hw c.memory
    · exact h.reads u call' code hu hw
  · obtain ⟨x', hx, hfst⟩ := hfirst u x hu
    obtain ⟨y', hy, -⟩ := hfirst u' y hu'
    exact h.alone u u' x' y' hx (hfst ▸ hw) hy
  · refine h.calm fun u x hu => ?_
    by_cases hut : u = t
    · rw [hut, ht] at hu
      cases hu
      exact hcalm t (call, next c.memory) (by rw [active_moved, if_pos rfl])
    · exact hcalm u x (by rw [active_moved, if_neg hut]; exact hu)

/-- A section that changes the memory is alone, and has come one step nearer to its end. -/
theorem inv_change (h : Inv body writes c a) {call : κ} {f : σ → σ} {next : Code σ ρ}
    (ht : c.active t = some (call, .change f next)) :
    Inv body writes (c.moved t (f c.memory) (some (call, next))) a := by
  have hw : writes call = true := by
    by_contra hno
    exact h.reads t call _ ht (by simpa using hno)
  have honly : ∀ u x, (c.moved t (f c.memory) (some (call, next))).active u = some x → u = t ∧ x = (call, next) := by
    intro u x hu
    rw [active_moved] at hu
    split at hu
    · next hut =>
      cases hu
      exact ⟨hut, rfl⟩
    · next hut =>
      rw [h.others ht hw hut] at hu
      cases hu
  refine ⟨fun u call' code hu => ?_, fun u call' code hu hno => ?_, fun u u' x y hu _ hu' => ?_, fun hcalm => ?_⟩
  · obtain ⟨-, heq⟩ := honly u _ hu
    cases heq
    exact h.remaining t call _ ht
  · obtain ⟨-, heq⟩ := honly u _ hu
    cases heq
    rw [hw] at hno
    cases hno
  · exact (honly u x hu).1.trans (honly u' y hu').1.symm
  · have hno := hcalm t (call, next) (by rw [active_moved, if_pos rfl])
    rw [hw] at hno
    cases hno

/-- At the end of a section the memory is what its execution at one moment leaves. -/
theorem inv_leave (h : Inv body writes c a) {call : κ} {result : ρ} (ht : c.active t = some (call, .done result)) :
    ((body call).run a).2 = result ∧ Inv body writes (c.moved t c.memory none) ((body call).run a).1 := by
  have hrun : (c.memory, result) = (body call).run a := h.remaining t call _ ht
  rw [← hrun]
  have hothers : ∀ u x, (c.moved t c.memory none).active u = some x → u ≠ t ∧ c.active u = some x := by
    intro u x hu
    rw [active_moved] at hu
    split at hu
    · cases hu
    · next hut => exact ⟨hut, hu⟩
  refine ⟨rfl, fun u call' code hu => ?_, fun u call' code hu => ?_, fun u u' x y hu hw hu' => ?_, fun _ => rfl⟩
  · obtain ⟨hut, hu⟩ := hothers u _ hu
    -- beside another section this one has changed nothing
    have hcalm : c.memory = a := by
      refine h.calm fun u' x hu' => ?_
      by_contra hno
      have hw : writes x.1 = true := by simpa using hno
      exact hut ((h.alone u' u x _ hu' hw hu).symm.trans (h.alone u' t x _ hu' hw ht))
    exact (h.remaining u call' code hu).trans (by rw [hcalm])
  · exact h.reads u call' code (hothers u _ hu).2
  · exact h.alone u u' x y (hothers u x hu).2 hw (hothers u' y hu').2

/-- **Every step** keeps it. -/
theorem inv_act (hreads : ∀ call, writes call = false → (body call).ReadOnly) {s : σ} {history : List (κ × ρ)}
    {action : Action κ ι} (hadmits : Admits writes c action)
    (h : ∃ a, Replays (fun call => (body call).run) s history a ∧ Inv body writes c a) :
    ∃ a, Replays (fun call => (body call).run) s (history ++ ended c action) a ∧
      Inv body writes (act body c action) a := by
  obtain ⟨a, hreplays, h⟩ := h
  have hsame : Replays (fun call => (body call).run) s (history ++ []) a := by rwa [List.append_nil]
  cases action with
  | enter t call =>
    rw [act, ended]
    split
    · exact ⟨a, hsame, inv_enter h hreads hadmits⟩
    · exact ⟨a, hsame, h⟩
  | access t =>
    rw [act, ended]
    split
    · next call next ht => exact ⟨a, hsame, inv_look h ht⟩
    · next call f next ht => exact ⟨a, hsame, inv_change h ht⟩
    · exact ⟨a, hsame, h⟩
  | leave t =>
    rw [act, ended]
    split
    · next call result ht =>
      obtain ⟨hresult, hinv⟩ := inv_leave h ht
      rw [← hresult]
      exact ⟨_, hreplays.append, hinv⟩
    · exact ⟨a, hsame, h⟩

/-- **Sections are atomic**: those that have ended replay one after the other. -/
theorem replays_run (hreads : ∀ call, writes call = false → (body call).ReadOnly) (s : σ)
    {actions : List (Action κ ι)}
    (hadmits : Runs.Along (act body) (Admits writes) (⟨s, fun _ => none⟩ : Config σ ρ κ ι) actions) :
    ∃ a, Replays (fun call => (body call).run) s
        (Runs.collect (act body) ended (⟨s, fun _ => none⟩ : Config σ ρ κ ι) actions) a ∧
      Inv body writes (Runs.run (act body) (⟨s, fun _ => none⟩ : Config σ ρ κ ι) actions) a := by
  have hrun := @Runs.run_collect_invariant _ _ _ (act body) ended
    (fun c history => ∃ a, Replays (fun call => (body call).run) s history a ∧ Inv body writes c a) (Admits writes)
    (fun c action history h hadmits => inv_act hreads hadmits h) _ _ [] ⟨s, rfl, inv_start s⟩ hadmits
  rwa [List.nil_append] at hrun

end Threads

end Sections

end Logvine
