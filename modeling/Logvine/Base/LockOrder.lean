import Mathlib

/-!
# Locks taken in an order

Threads that take and release mutual-exclusion locks, and that run through a shared
component with a state of its own, in which a thread may also have to wait. What a thread
has still to do is a list of instructions, so the locks it holds can be read off: they are
those it has still to release.

- `Shared`: the component and how far each thread has come with it; `Shared.Safe` is what
  the rest relies on: an invariant, under which some thread inside can always go on;
- `Threads.next`: the next instruction of a thread, `none` while it has to wait;
- `Ordered`: code that takes a lock only while those it holds have a smaller rank;
  `Balanced` is the same of a part of the code, closed under `locked` and append;
- `Threads.exists_next`: with ordered code and a safe component nobody waits forever on
  everybody else.
-/

namespace Logvine

namespace LockOrder

universe u v w x

variable {L : Type u} {σ : Type v} {π : Type w} {ι : Type x} [DecidableEq ι]

/-! ## The shared component -/

/-- A shared state, and how far each thread has come with it (`none`: it is outside). -/
structure Shared (σ : Type v) (π : Type w) (ι : Type x) where
  state : σ
  pc : ι → Option π

namespace Shared

variable (step : σ → π → Option (σ × Option π))

/-- The thread is at this point now, and the state is this. -/
def moved (c : Shared σ π ι) (t : ι) (state : σ) (p : Option π) : Shared σ π ι :=
  ⟨state, Function.update c.pc t p⟩

/-- The next step of a thread; `none` if it is outside or has to wait. -/
def next (c : Shared σ π ι) (t : ι) : Option (Shared σ π ι) :=
  (c.pc t).bind fun p => (step c.state p).map fun moved => c.moved t moved.1 moved.2

variable {step}

/-- When a thread can step, and to what. -/
theorem next_eq_some {c c' : Shared σ π ι} {t : ι} :
    c.next step t = some c' ↔ ∃ p state p', c.pc t = some p ∧ step c.state p = some (state, p') ∧
      c.moved t state p' = c' := by
  constructor
  · intro h
    obtain ⟨p, hp, h⟩ := Option.bind_eq_some_iff.mp h
    obtain ⟨⟨state, p'⟩, hstep, h⟩ := Option.map_eq_some_iff.mp h
    exact ⟨p, state, p', hp, hstep, h⟩
  · rintro ⟨p, state, p', hp, hstep, rfl⟩
    rw [next, hp, Option.bind_some, hstep]
    rfl

@[simp] theorem moved_moved (c : Shared σ π ι) (t : ι) (s s' : σ) (p p' : Option π) :
    (c.moved t s p).moved t s' p' = c.moved t s' p' := by
  rw [moved, moved, moved, Function.update_idem]

/-- A thread that moves to where it is changes nothing. -/
theorem moved_self (c : Shared σ π ι) (t : ι) : c.moved t c.state (c.pc t) = c := by
  rw [moved, Function.update_eq_self]

/-! ### How many threads are at certain points -/

omit [DecidableEq ι] in
/-- Threads of a kind are counted as the others and the one that moves. -/
theorem ncard_split {f : ι → Option π} {P : Option π → Bool} (hf : {u | P (f u)}.Finite) (t : ι) :
    {u | P (f u)}.ncard = {u | u ≠ t ∧ P (f u)}.ncard + (P (f t)).toNat := by
  have hrest : {u | u ≠ t ∧ P (f u)}.Finite := hf.subset fun u hu => hu.2
  cases ht : P (f t) with
  | true =>
    have hinsert : {u | P (f u)} = insert t {u | u ≠ t ∧ P (f u)} := by
      ext u
      by_cases hu : u = t
      · subst hu
        exact iff_of_true ht (.inl rfl)
      · simp [hu]
    rw [hinsert, Set.ncard_insert_of_notMem (fun hu => hu.1 rfl) hrest]
    rfl
  | false =>
    have hsame : {u | P (f u)} = {u | u ≠ t ∧ P (f u)} := by
      ext u
      refine ⟨fun hu => ⟨?_, hu⟩, fun hu => hu.2⟩
      rintro rfl
      exact Bool.false_ne_true (ht.symm.trans hu)
    rw [hsame]
    rfl

/-- One thread more or fewer leaves finitely many. -/
theorem finite_update {f : ι → Option π} {P : Option π → Bool} (hf : {u | P (f u)}.Finite) (t : ι)
    (p : Option π) : {u | P (Function.update f t p u)}.Finite := by
  refine (hf.insert t).subset fun u hu => ?_
  by_cases hut : u = t
  · exact .inl hut
  · have hmem : P (Function.update f t p u) = true := hu
    rw [Function.update_of_ne hut] at hmem
    exact .inr hmem

/-- One thread that moves changes the number by its own part only. -/
theorem ncard_update {f : ι → Option π} {P : Option π → Bool} (hf : {u | P (f u)}.Finite) (t : ι)
    (p : Option π) : {u | P (Function.update f t p u)}.ncard + (P (f t)).toNat =
      {u | P (f u)}.ncard + (P p).toNat := by
  have hothers : {u | u ≠ t ∧ P (Function.update f t p u)} = {u | u ≠ t ∧ P (f u)} := by
    ext u
    refine and_congr_right fun hu => ?_
    rw [Function.update_of_ne hu]
  rw [ncard_split (finite_update hf t p) t, ncard_split hf t, hothers, Function.update_self]
  omega

/-- An invariant of the component, under which the threads inside do not all wait. -/
structure Safe (step : σ → π → Option (σ × Option π)) (Entry : π → Prop) (Inv : Shared σ π ι → Prop) :
    Prop where
  enter : ∀ {c t p}, Inv c → c.pc t = none → Entry p → Inv (c.moved t c.state (some p))
  next : ∀ {c t c'}, Inv c → c.next step t = some c' → Inv c'
  progress : ∀ {c t}, Inv c → c.pc t ≠ none → ∃ u, (c.next step u).isSome

end Shared

/-! ## Code -/

/-- An instruction: of a lock, or a point inside the component. -/
inductive Instr (L : Type u) (π : Type w) where
  | acquire (lock : L)
  | release (lock : L)
  | inside (p : π)
deriving DecidableEq, Repr

/-- The locks that code has still to release, the next one first. -/
def owed : List (Instr L π) → List L
  | [] => []
  | .acquire _ :: rest => (owed rest).tail
  | .release l :: rest => l :: owed rest
  | .inside _ :: rest => owed rest

/-- The point inside the component, if code is at one. -/
def pcOf : List (Instr L π) → Option π
  | .inside p :: _ => some p
  | _ => none

/-- A part of the code under a lock. -/
def locked (l : L) (body : List (Instr L π)) : List (Instr L π) := .acquire l :: (body ++ [.release l])

variable (rank : L → Nat) (Entry : π → Prop)

/-- A point inside the component that the code still has to come to is an entry. -/
def Fresh : Instr L π → Prop
  | .inside p => Entry p
  | _ => True

/-- Locks are released in the order opposite to the one they are taken in, and a lock that is
taken while others are held has a greater rank than they have. -/
def Ordered : List (Instr L π) → Prop
  | [] => True
  | .acquire l :: rest => (owed rest).head? = some l ∧ Ordered rest
  | .release l :: rest => (∀ m ∈ owed rest, rank m < rank l) ∧ Ordered rest
  | .inside _ :: rest => Ordered rest

/-- Code of which only the first point inside may not be an entry. -/
structure WellFormed (code : List (Instr L π)) : Prop where
  ordered : Ordered rank code
  fresh : ∀ i ∈ code.tail, Fresh Entry i

/-- A part of the code that can stand where only locks of a rank below the bound are held. -/
structure Balanced (bound : Nat) (body : List (Instr L π)) : Prop where
  fresh : ∀ i ∈ body, Fresh Entry i
  append : ∀ rest, Ordered rank rest → (∀ m ∈ owed rest, rank m < bound) →
    Ordered rank (body ++ rest) ∧ owed (body ++ rest) = owed rest

variable {rank Entry}

/-- What taking a lock says about the code that follows. -/
theorem owed_acquire {l : L} {rest : List (Instr L π)} (h : Ordered rank (.acquire l :: rest)) :
    owed rest = l :: owed (.acquire l :: rest) :=
  (List.cons_head?_tail h.1).symm

/-- The locks held have different ranks, the one taken last the greatest. -/
theorem pairwise_owed {code : List (Instr L π)} (h : Ordered rank code) :
    (owed code).Pairwise fun l m => rank m < rank l := by
  induction code with
  | nil => exact List.Pairwise.nil
  | cons i rest ih =>
    cases i with
    | acquire l => exact (ih h.2).tail
    | release l => exact List.Pairwise.cons h.1 (ih h.2)
    | inside p => exact ih h

/-- A lock that is taken next is above all those held. -/
theorem rank_lt_of_acquire {l : L} {rest : List (Instr L π)} (h : Ordered rank (.acquire l :: rest)) :
    ∀ m ∈ owed (.acquire l :: rest), rank m < rank l := by
  have hpairwise := pairwise_owed h.2
  rw [owed_acquire h] at hpairwise
  exact (List.pairwise_cons.mp hpairwise).1

/-! ## Composing code -/

namespace Balanced

/-- Code without instructions is balanced. -/
theorem nil {bound : Nat} : Balanced rank Entry bound ([] : List (Instr L π)) :=
  ⟨fun _ hi => absurd hi List.not_mem_nil, fun _ h _ => ⟨h, rfl⟩⟩

/-- So is a section inside the shared component. -/
theorem inside {bound : Nat} {p : π} (h : Entry p) :
    Balanced rank Entry bound ([.inside p] : List (Instr L π)) := by
  constructor
  · intro i hi
    rw [List.mem_singleton.mp hi]
    exact h
  · intro rest hrest _
    exact ⟨hrest, rfl⟩

/-- Balanced code may be followed by balanced code. -/
theorem append' {bound : Nat} {body body' : List (Instr L π)} (h : Balanced rank Entry bound body)
    (h' : Balanced rank Entry bound body') : Balanced rank Entry bound (body ++ body') := by
  constructor
  · intro i hi
    rcases List.mem_append.mp hi with hi | hi
    · exact h.fresh i hi
    · exact h'.fresh i hi
  · intro rest hrest hheld
    obtain ⟨hordered, howed⟩ := h'.append rest hrest hheld
    rw [List.append_assoc, ← howed]
    exact h.append _ hordered (howed ▸ hheld)

/-- So may any number of balanced parts. -/
theorem flatten {bound : Nat} {bodies : List (List (Instr L π))}
    (h : ∀ body ∈ bodies, Balanced rank Entry bound body) : Balanced rank Entry bound bodies.flatten := by
  induction bodies with
  | nil => exact nil
  | cons body bodies ih =>
    exact (h body List.mem_cons_self).append' (ih fun b hb => h b (List.mem_cons_of_mem _ hb))

/-- A lock around code that takes only greater ones. -/
theorem locked {bound : Nat} {l : L} {body : List (Instr L π)} (hbound : bound ≤ rank l)
    (h : Balanced rank Entry (rank l + 1) body) : Balanced rank Entry bound (LockOrder.locked l body) := by
  constructor
  · intro i hi
    rcases List.mem_cons.mp hi with rfl | hi
    · trivial
    rcases List.mem_append.mp hi with hi | hi
    · exact h.fresh i hi
    · rw [List.mem_singleton.mp hi]
      trivial
  · intro rest hrest hheld
    have hlt : ∀ m ∈ owed rest, rank m < rank l := fun m hm => lt_of_lt_of_le (hheld m hm) hbound
    have hrelease : Ordered rank (.release l :: rest : List (Instr L π)) := ⟨hlt, hrest⟩
    have hheld' : ∀ m ∈ owed (.release l :: rest : List (Instr L π)), rank m < rank l + 1 := by
      intro m hm
      rcases List.mem_cons.mp hm with rfl | hm
      · exact Nat.lt_succ_self _
      · exact Nat.lt_succ_of_lt (hlt m hm)
    obtain ⟨hordered, howed⟩ := h.append _ hrelease hheld'
    rw [LockOrder.locked, List.cons_append, List.append_assoc, List.singleton_append]
    refine ⟨⟨?_, hordered⟩, ?_⟩
    · rw [howed]
      rfl
    · rw [owed, howed]
      rfl

/-- Balanced code takes its locks in the order of their ranks, and owes none at its end. -/
theorem ordered {bound : Nat} {code : List (Instr L π)} (h : Balanced rank Entry bound code) :
    Ordered rank code ∧ owed code = [] := by
  have hnil := h.append [] trivial fun _ hm => absurd hm List.not_mem_nil
  rwa [List.append_nil] at hnil

end Balanced

/-! ## Who holds a lock -/

/-- A lock is taken if and only if some thread has still to release it, and then one only. -/
structure Owners (held : L → Bool) (owes : ι → List L) : Prop where
  held : ∀ l, held l = true ↔ ∃ t, l ∈ owes t
  unique : ∀ {t u l}, l ∈ owes t → l ∈ owes u → t = u

namespace Owners

variable [DecidableEq L] {owes : ι → List L} {t : ι} {l : L} {locks : List L}

omit [DecidableEq L] in
/-- What the threads owe after one of them has moved. -/
theorem mem_update {u : ι} {m : L} :
    m ∈ Function.update owes t locks u ↔ (u = t ∧ m ∈ locks) ∨ (u ≠ t ∧ m ∈ owes u) := by
  by_cases h : u = t
  · subst h
    simp
  · simp [h]

/-- A lock that is free comes to the one thread that takes it. -/
theorem acquire {held : L → Bool} (h : Owners held owes) (hl : held l = false) :
    Owners (Function.update held l true) (Function.update owes t (l :: owes t)) := by
  have hfree : ∀ u, l ∉ owes u := by
    intro u hu
    rw [(h.held l).mpr ⟨u, hu⟩] at hl
    cases hl
  -- who owes a lock now owed it before, or it is `l`
  have howes : ∀ {u m}, m ∈ Function.update owes t (l :: owes t) u → (u = t ∧ m = l) ∨ m ∈ owes u := by
    intro u m hm
    rcases mem_update.mp hm with ⟨rfl, hm⟩ | ⟨-, hm⟩
    · exact (List.mem_cons.mp hm).imp_left fun h => ⟨rfl, h⟩
    · exact .inr hm
  constructor
  · intro m
    by_cases hm : m = l
    · subst hm
      exact iff_of_true (Function.update_self ..) ⟨t, mem_update.mpr (.inl ⟨rfl, List.mem_cons_self⟩)⟩
    rw [Function.update_of_ne hm, h.held m]
    constructor
    · rintro ⟨u, hu⟩
      refine ⟨u, mem_update.mpr ?_⟩
      by_cases hut : u = t
      · exact .inl ⟨hut, List.mem_cons_of_mem _ (hut ▸ hu)⟩
      · exact .inr ⟨hut, hu⟩
    · rintro ⟨u, hu⟩
      rcases howes hu with ⟨-, hml⟩ | hu
      · exact absurd hml hm
      · exact ⟨u, hu⟩
  · intro u u' m hu hu'
    rcases howes hu with ⟨hut, hml⟩ | hu
    · rcases howes hu' with ⟨hut', -⟩ | hu'
      · rw [hut, hut']
      · exact absurd (hml ▸ hu') (hfree u')
    · rcases howes hu' with ⟨-, hml⟩ | hu'
      · exact absurd (hml ▸ hu) (hfree u)
      · exact h.unique hu hu'

/-- A lock that is given back is owed by nobody. -/
theorem release {held : L → Bool} (h : Owners held owes) (ht : owes t = l :: locks) (hl : l ∉ locks) :
    Owners (Function.update held l false) (Function.update owes t locks) := by
  have hlt : l ∈ owes t := ht ▸ List.mem_cons_self
  have howes : ∀ {u m}, m ∈ Function.update owes t locks u ↔ m ∈ owes u ∧ m ≠ l := by
    intro u m
    rw [mem_update]
    by_cases hut : u = t
    · subst hut
      rw [ht, List.mem_cons]
      constructor
      · rintro (⟨-, hm⟩ | ⟨hne, -⟩)
        · exact ⟨.inr hm, ne_of_mem_of_not_mem hm hl⟩
        · exact absurd rfl hne
      · rintro ⟨rfl | hm, hne⟩
        · exact absurd rfl hne
        · exact .inl ⟨rfl, hm⟩
    · constructor
      · rintro (⟨heq, -⟩ | ⟨-, hm⟩)
        · exact absurd heq hut
        · exact ⟨hm, fun heq => hut (h.unique (heq ▸ hm) hlt)⟩
      · rintro ⟨hm, -⟩
        exact .inr ⟨hut, hm⟩
  constructor
  · intro m
    by_cases hm : m = l
    · subst hm
      rw [Function.update_self]
      exact iff_of_false Bool.false_ne_true fun ⟨u, hu⟩ => (howes.mp hu).2 rfl
    rw [Function.update_of_ne hm, h.held m]
    constructor
    · rintro ⟨u, hu⟩
      exact ⟨u, howes.mpr ⟨hu, hm⟩⟩
    · rintro ⟨u, hu⟩
      exact ⟨u, (howes.mp hu).1⟩
  · intro u u' m hu hu'
    exact h.unique (howes.mp hu).1 (howes.mp hu').1

end Owners

/-! ## Threads -/

/-- Which locks are taken, the state of the component, and what each thread has still to do. -/
structure Threads (L : Type u) (σ : Type v) (π : Type w) (ι : Type x) where
  held : L → Bool
  state : σ
  code : ι → List (Instr L π)

namespace Threads

variable [DecidableEq L] (step : σ → π → Option (σ × Option π))

/-- The instruction a thread is at has become these. -/
def continued (c : Threads L σ π ι) (t : ι) (code : List (Instr L π)) : Threads L σ π ι :=
  { c with code := Function.update c.code t code }

/-- The next instruction of a thread; `none` if it has finished or has to wait, or if it
would release a lock that is not taken. -/
def next (c : Threads L σ π ι) (t : ι) : Option (Threads L σ π ι) :=
  match c.code t with
  | [] => none
  | .acquire l :: rest =>
    if c.held l then none else some ({ c with held := Function.update c.held l true }.continued t rest)
  | .release l :: rest =>
    if c.held l then some ({ c with held := Function.update c.held l false }.continued t rest) else none
  | .inside p :: rest =>
    (step c.state p).map fun moved =>
      { c with state := moved.1 }.continued t (moved.2.elim rest fun p' => .inside p' :: rest)

/-- The component, as these threads use it. -/
def shared (c : Threads L σ π ι) : Shared σ π ι := ⟨c.state, fun t => pcOf (c.code t)⟩

variable (rank Entry) (SharedInv : Shared σ π ι → Prop)

/-- What holds in every state: of the code, of the locks, of the component. -/
structure Inv (c : Threads L σ π ι) : Prop where
  wellFormed : ∀ t, WellFormed rank Entry (c.code t)
  owners : Owners c.held fun t => owed (c.code t)
  shared : SharedInv c.shared

/-- Nobody has begun. -/
def start (state : σ) : Threads L σ π ι := ⟨fun _ => false, state, fun _ => []⟩

variable {rank Entry SharedInv}

omit [DecidableEq L] [DecidableEq ι] in
/-- At the start no thread is running. -/
theorem inv_start {state : σ} (h : SharedInv ⟨state, fun _ => none⟩) :
    Inv rank Entry SharedInv (start state : Threads L σ π ι) := by
  refine ⟨fun t => ⟨trivial, fun i hi => absurd hi List.not_mem_nil⟩, ⟨fun l => ?_, ?_⟩, h⟩
  · exact iff_of_false Bool.false_ne_true fun ⟨t, ht⟩ => List.not_mem_nil ht
  · intro t u l ht
    exact absurd ht List.not_mem_nil

omit [DecidableEq L] in
/-- What is to be shown when one thread goes on. -/
theorem inv_continued {c : Threads L σ π ι} (h : Inv rank Entry SharedInv c) {held : L → Bool} {state : σ}
    {t : ι} {code : List (Instr L π)} (hcode : WellFormed rank Entry code)
    (howners : Owners held (Function.update (fun u => owed (c.code u)) t (owed code)))
    (hshared : SharedInv (c.shared.moved t state (pcOf code))) :
    Inv rank Entry SharedInv (continued ⟨held, state, c.code⟩ t code) := by
  refine ⟨?_, ?_, ?_⟩
  · intro u
    show WellFormed rank Entry (Function.update c.code t code u)
    by_cases hu : u = t
    · subst hu
      rwa [Function.update_self]
    · rw [Function.update_of_ne hu]
      exact h.wellFormed u
  · have howed : (fun u => owed (Function.update c.code t code u)) =
        Function.update (fun u => owed (c.code u)) t (owed code) :=
      funext fun u => Function.apply_update (fun _ => owed) c.code t code u
    rw [← howed] at howners
    exact howners
  · have hpc : (fun u => pcOf (Function.update c.code t code u)) =
        Function.update (fun u => pcOf (c.code u)) t (pcOf code) :=
      funext fun u => Function.apply_update (fun _ => pcOf) c.code t code u
    rw [Shared.moved, shared, ← hpc] at hshared
    exact hshared

variable {step}

omit [DecidableEq L] in
/-- A thread outside the component goes on with code whose points are entries. -/
theorem shared_entered (safe : Shared.Safe step Entry SharedInv) {c : Shared σ π ι} {t : ι}
    {code : List (Instr L π)} (h : SharedInv c) (ht : c.pc t = none) (hcode : ∀ i ∈ code, Fresh Entry i) :
    SharedInv (c.moved t c.state (pcOf code)) := by
  match code with
  | [] | .acquire _ :: _ | .release _ :: _ =>
    rw [pcOf, ← ht, Shared.moved_self]
    · exact h
    all_goals simp
  | .inside p :: _ => exact safe.enter h ht (hcode _ List.mem_cons_self)

/-- **Every step** keeps the invariant. -/
theorem inv_next (safe : Shared.Safe step Entry SharedInv) {c c' : Threads L σ π ι} {t : ι}
    (h : Inv rank Entry SharedInv c) (hnext : c.next step t = some c') : Inv rank Entry SharedInv c' := by
  obtain ⟨hordered, hfresh⟩ := h.wellFormed t
  rw [next] at hnext
  split at hnext
  · cases hnext
  · next l rest hcode =>
    rw [hcode] at hordered hfresh
    split at hnext
    · cases hnext
    · next hl =>
      cases hnext
      refine inv_continued h ⟨hordered.2, fun i hi => hfresh i (List.mem_of_mem_tail hi)⟩ ?_
        (shared_entered safe h.shared (congrArg pcOf hcode) hfresh)
      rw [owed_acquire hordered, ← hcode]
      exact h.owners.acquire (Bool.eq_false_iff.mpr hl)
  · next l rest hcode =>
    rw [hcode] at hordered hfresh
    split at hnext
    · cases hnext
      refine inv_continued h ⟨hordered.2, fun i hi => hfresh i (List.mem_of_mem_tail hi)⟩ ?_
        (shared_entered safe h.shared (congrArg pcOf hcode) hfresh)
      exact h.owners.release (congrArg owed hcode) fun hl => lt_irrefl _ (hordered.1 l hl)
    · cases hnext
  · next p rest hcode =>
    rw [hcode] at hordered hfresh
    obtain ⟨⟨state, p'⟩, hstep, heq⟩ := Option.map_eq_some_iff.mp hnext
    subst heq
    have hpc : c.shared.pc t = some p := congrArg pcOf hcode
    have hmoved := safe.next h.shared (Shared.next_eq_some.mpr ⟨p, state, p', hpc, hstep, rfl⟩)
    -- no lock is taken or released
    have howners : Owners c.held (Function.update (fun u => owed (c.code u)) t (owed rest)) := by
      have hself : owed rest = owed (c.code t) := (congrArg owed hcode).symm
      rw [hself, Function.update_eq_self t fun u => owed (c.code u)]
      exact h.owners
    cases p' with
    | none =>
      have hentered := shared_entered safe hmoved (Function.update_self ..) hfresh
      rw [Shared.moved_moved] at hentered
      exact inv_continued h ⟨hordered, fun i hi => hfresh i (List.mem_of_mem_tail hi)⟩ howners hentered
    | some p' =>
      have hcode' : WellFormed rank Entry (.inside p' :: rest) := ⟨hordered, hfresh⟩
      exact inv_continued h hcode' howners hmoved

omit [DecidableEq L] in
/-- A thread that has finished may begin anything balanced. -/
theorem inv_begin (safe : Shared.Safe step Entry SharedInv) {c : Threads L σ π ι} {t : ι}
    (h : Inv rank Entry SharedInv c) (ht : c.code t = []) {code : List (Instr L π)} {bound : Nat}
    (hcode : Balanced rank Entry bound code) : Inv rank Entry SharedInv (c.continued t code) := by
  obtain ⟨hordered, howed⟩ := hcode.ordered
  refine inv_continued h ⟨hordered, fun i hi => hcode.fresh i (List.mem_of_mem_tail hi)⟩ ?_
    (shared_entered safe h.shared (congrArg pcOf ht) hcode.fresh)
  have hself : owed code = owed (c.code t) := by
    rw [howed, ht]
    rfl
  rw [hself, Function.update_eq_self t fun u => owed (c.code u)]
  exact h.owners

/-! ## No deadlock -/

/-- A thread within a shared section moves as that lock lets it. -/
theorem next_inside {c : Threads L σ π ι} {t : ι} (h : (c.shared.next step t).isSome) :
    (c.next step t).isSome := by
  obtain ⟨c', hc'⟩ := Option.isSome_iff_exists.mp h
  obtain ⟨p, state, p', hp, hstep, -⟩ := Shared.next_eq_some.mp hc'
  rw [next]
  rw [shared] at hp hstep
  dsimp only at hp hstep
  split
  · next hcode => rw [hcode] at hp; cases hp
  · next hcode => rw [hcode] at hp; cases hp
  · next hcode => rw [hcode] at hp; cases hp
  · next hcode =>
    rw [hcode] at hp
    cases hp
    rw [hstep]
    rfl

/-- A thread that cannot go on is outside the component and waits for a lock that another
thread has still to release. -/
theorem waits {c : Threads L σ π ι} (safe : Shared.Safe step Entry SharedInv)
    (h : Inv rank Entry SharedInv c) (hstuck : ∀ u, c.next step u = none) {t : ι} (ht : c.code t ≠ []) :
    ∃ l rest u, c.code t = .acquire l :: rest ∧ l ∈ owed (c.code u) := by
  have hstuckt := hstuck t
  rw [next] at hstuckt
  split at hstuckt
  · next hcode => exact absurd hcode ht
  · next l rest hcode =>
    split at hstuckt
    · next hl =>
      obtain ⟨u, hu⟩ := (h.owners.held l).mp hl
      exact ⟨l, rest, u, hcode, hu⟩
    · cases hstuckt
  · next l rest hcode =>
    have hl : c.held l = true := (h.owners.held l).mpr ⟨t, by rw [hcode]; exact List.mem_cons_self⟩
    rw [if_pos hl] at hstuckt
    cases hstuckt
  · next p rest hcode =>
    have hinside : c.shared.pc t ≠ none := by
      show pcOf (c.code t) ≠ none
      rw [hcode]
      exact Option.some_ne_none p
    obtain ⟨u, hu⟩ := safe.progress h.shared hinside
    have hmoves := next_inside hu
    rw [hstuck u] at hmoves
    cases hmoves

/-- **No deadlock**: while some thread has not finished, some thread can go on. Of two
threads that wait, one for the other's lock, the second waits for a greater lock. -/
theorem exists_next {c : Threads L σ π ι} (safe : Shared.Safe step Entry SharedInv) {bound : Nat}
    (hbound : ∀ l, rank l ≤ bound) (h : Inv rank Entry SharedInv c) {t : ι} (ht : c.code t ≠ []) :
    ∃ u, (c.next step u).isSome := by
  by_contra hnone
  have hstuck : ∀ u, c.next step u = none := by
    intro u
    rw [← Option.not_isSome_iff_eq_none]
    exact fun hu => hnone ⟨u, hu⟩
  -- the thread that holds the lock waits for a greater one, and so on
  have hchain : ∀ n t l rest, c.code t = .acquire l :: rest → ¬bound < rank l + n := by
    intro n
    induction n with
    | zero =>
      intro t l rest _
      exact Nat.not_lt.mpr (hbound l)
    | succ n ih =>
      intro t l rest hcode hn
      have hunfinished : c.code t ≠ [] := hcode ▸ List.cons_ne_nil _ _
      obtain ⟨l₁, rest₁, u, hcode₁, hu⟩ := waits safe h hstuck hunfinished
      obtain rfl : l = l₁ := by
        rw [hcode] at hcode₁
        cases hcode₁
        rfl
      have hholder : c.code u ≠ [] := by
        intro hnil
        rw [hnil] at hu
        cases hu
      obtain ⟨l', rest', -, hcode', -⟩ := waits safe h hstuck hholder
      have hordered := (h.wellFormed u).ordered
      rw [hcode'] at hordered hu
      have hlt := rank_lt_of_acquire hordered l hu
      exact ih u l' rest' hcode' (by omega)
  obtain ⟨l, rest, -, hcode, -⟩ := waits safe h hstuck ht
  exact hchain (bound + 1) t l rest hcode (by omega)

end Threads

end LockOrder

end Logvine
