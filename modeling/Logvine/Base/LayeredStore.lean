import Logvine.Base.Layers

/-!
# The layered store

What a log-structured store is for, without files: a stack of layers of which
the top one is written, full layers wait in a queue, the oldest of them is
copied into the tables and then leaves the queue, and the tables may be
rearranged as long as they answer every key as before. The store *is* a map:

- `view_write`, `view_quiet`: a step either changes nothing a reader can see or
  puts exactly the written entries over what was there;
- `lookup_linearizes`: a reader that looks into memory first and, later, into
  the tables of a store that has moved on in between, still sees a value that
  was current at some moment between its two looks;
- `uniform_step`: what is written at once stays together in one layer, and reaches the
  tables at once.
-/

namespace Logvine

open Layer

universe u v

/-- A written layer, the full layers waiting to be copied (oldest first), and
what the tables resolve to. -/
structure LayeredStore (κ : Type u) (ν : Type v) where
  active : Layer κ ν
  queue : List (Layer κ ν)
  tables : Layer κ ν

namespace LayeredStore

variable {κ : Type u} {ν : Type v}

/-- What the layers kept in memory answer. -/
def memory (s : LayeredStore κ ν) : Layer κ ν := above s.active (resolve s.queue.reverse)

/-- What the whole store answers. -/
def view (s : LayeredStore κ ν) : Layer κ ν := above s.memory s.tables

/-- What a step does, as seen by a reader: it writes a layer, or nothing. -/
inductive Event (κ : Type u) (ν : Type v) where
  | write (u : Layer κ ν)
  | quiet

/-- The steps of the store. The written layer may be moved to the queue together with
a write, after it or before it. `register` copies the oldest waiting layer over the
tables without removing it from the queue, `retire` removes it once the tables hold
all of it. -/
inductive Step : LayeredStore κ ν → Event κ ν → LayeredStore κ ν → Prop where
  | write (s : LayeredStore κ ν) (u : Layer κ ν) :
      Step s (.write u) { s with active := above u s.active }
  | writeRotate (s : LayeredStore κ ν) (u : Layer κ ν) :
      Step s (.write u) { s with active := empty, queue := s.queue ++ [above u s.active] }
  | rotateWrite (s : LayeredStore κ ν) (u : Layer κ ν) :
      Step s (.write u) { s with active := u, queue := s.queue ++ [s.active] }
  | rotate (s : LayeredStore κ ν) :
      Step s .quiet { s with active := empty, queue := s.queue ++ [s.active] }
  | register {s : LayeredStore κ ν} {f : Layer κ ν} {fs : List (Layer κ ν)} (h : s.queue = f :: fs) :
      Step s .quiet { s with tables := above f s.tables }
  | retire {s : LayeredStore κ ν} {f : Layer κ ν} {fs : List (Layer κ ν)} (h : s.queue = f :: fs)
      (hcopied : Below f s.tables) : Step s .quiet { s with queue := fs }
  | idle (s : LayeredStore κ ν) : Step s .quiet s

/-- A write puts its entries over the current view. -/
theorem view_write {s s' : LayeredStore κ ν} {u : Layer κ ν} (h : Step s (.write u) s') :
    s'.view = above u s.view := by
  cases h with
  | write => simp only [view, memory, above_assoc]
  | writeRotate => simp [view, memory, above_assoc]
  | rotateWrite => simp [view, memory, above_assoc]

/-- A quiet step changes no answer. -/
theorem view_quiet {s s' : LayeredStore κ ν} (h : Step s .quiet s') : s'.view = s.view := by
  cases h with
  | rotate => simp [view, memory, above_assoc]
  | @register f fs hq =>
    -- the copied layer is the last one consulted before the tables
    simp only [view, memory, hq, List.reverse_cons, resolve_append, resolve_singleton, above_assoc,
      above_above_self]
  | @retire f fs hq hcopied =>
    simp only [view, memory, hq, List.reverse_cons, resolve_append, resolve_singleton, above_assoc,
      above_of_below hcopied]
  | idle => rfl

/-- What an event makes of the answers. -/
def Event.over : Event κ ν → Layer κ ν → Layer κ ν
  | .write u, f => above u f
  | .quiet, f => f

theorem view_step {s s' : LayeredStore κ ν} {e : Event κ ν} (h : Step s e s') : s'.view = e.over s.view := by
  cases e with
  | write u => exact view_write h
  | quiet => exact view_quiet h

/-! ## Runs -/

/-- The first `n` moves of a sequence of states are steps. -/
def Trace (t : Nat → LayeredStore κ ν) (n : Nat) : Prop := ∀ i < n, ∃ e, Step (t i) e (t (i + 1))

/-- `v` was the current answer for `k` at some moment up to the `n`-th. -/
def CurrentUpto (t : Nat → LayeredStore κ ν) (n : Nat) (k : κ) (v : Option ν) : Prop :=
  ∃ i ≤ n, (t i).view k = v

theorem CurrentUpto.later {t : Nat → LayeredStore κ ν} {n : Nat} {k : κ} {v : Option ν}
    (h : CurrentUpto t n k v) : CurrentUpto t (n + 1) k v := by
  obtain ⟨i, hi, hv⟩ := h
  exact ⟨i, Nat.le_succ_of_le hi, hv⟩

/-- Along a run that starts with no layer in memory holding `k`, the tables'
answer for `k` and the answer of every memory layer holding `k` were current at
some moment of the run. -/
structure Recent (t : Nat → LayeredStore κ ν) (n : Nat) (k : κ) : Prop where
  tables : CurrentUpto t n k ((t n).tables k)
  active : ∀ v, (t n).active k = some v → CurrentUpto t n k (some v)
  queue : ∀ f ∈ (t n).queue, ∀ v, f k = some v → CurrentUpto t n k (some v)

theorem recent_start {t : Nat → LayeredStore κ ν} {k : κ} (hmiss : (t 0).memory k = none) :
    Recent t 0 k := by
  have hactive : (t 0).active k = none := by
    rw [memory, above_apply, Option.or_eq_none_iff] at hmiss
    exact hmiss.1
  have hqueue : ∀ f ∈ (t 0).queue, f k = none := by
    rw [memory, above_apply, Option.or_eq_none_iff] at hmiss
    intro f hf
    exact resolve_eq_none_iff.mp hmiss.2 f (List.mem_reverse.mpr hf)
  refine ⟨⟨0, Nat.le_refl 0, above_of_none hmiss⟩, ?_, ?_⟩
  · intro v hv
    rw [hactive] at hv
    cases hv
  · intro f hf v hv
    rw [hqueue f hf] at hv
    cases hv

theorem recent_step {t : Nat → LayeredStore κ ν} {n : Nat} {k : κ} (h : Recent t n k)
    (hstep : ∃ e, Step (t n) e (t (n + 1))) : Recent t (n + 1) k := by
  obtain ⟨e, he⟩ := hstep
  generalize hnext : t (n + 1) = s at he
  have htables := h.tables
  have hactive := h.active
  have hqueue := h.queue
  generalize hlast : t n = r at he htables hactive hqueue
  -- state the goal without the sequence, so that the case split on the step can go through
  suffices key : CurrentUpto t (n + 1) k (s.tables k) ∧
      (∀ v, s.active k = some v → CurrentUpto t (n + 1) k (some v)) ∧
      ∀ f ∈ s.queue, ∀ v, f k = some v → CurrentUpto t (n + 1) k (some v) by
    rw [← hnext] at key
    exact ⟨key.1, key.2.1, key.2.2⟩
  -- what was written over the active layer is current right after the write
  have written : ∀ u v, s.view = above u r.view → above u r.active k = some v →
      CurrentUpto t (n + 1) k (some v) := by
    intro u v hview hv
    cases hu : u k with
    | none => exact (hactive v ((above_of_none hu).symm.trans hv)).later
    | some w =>
      rw [above_of_some hu] at hv
      refine ⟨n + 1, Nat.le_refl _, ?_⟩
      rw [hnext, hview, above_of_some hu, hv]
  have hview := fun u (h : e = .write u) => view_write (h ▸ he)
  cases he with
  | write u =>
    exact ⟨htables.later, fun v hv => written u v (hview u rfl) hv,
      fun f hf v hv => (hqueue f hf v hv).later⟩
  | writeRotate u =>
    refine ⟨htables.later, fun v hv => (nomatch hv), ?_⟩
    intro f hf v hv
    rcases List.mem_append.mp hf with hf | hf
    · exact (hqueue f hf v hv).later
    · rw [List.mem_singleton.mp hf] at hv
      exact written u v (hview u rfl) hv
  | rotateWrite u =>
    refine ⟨htables.later, ?_, ?_⟩
    · intro v hv
      refine ⟨n + 1, Nat.le_refl _, ?_⟩
      rw [hnext]
      exact above_of_some (above_of_some hv)
    · intro f hf v hv
      rcases List.mem_append.mp hf with hf | hf
      · exact (hqueue f hf v hv).later
      · rw [List.mem_singleton.mp hf] at hv
        exact (hactive v hv).later
  | rotate =>
    refine ⟨htables.later, fun v hv => (nomatch hv), ?_⟩
    intro f hf v hv
    rcases List.mem_append.mp hf with hf | hf
    · exact (hqueue f hf v hv).later
    · rw [List.mem_singleton.mp hf] at hv
      exact (hactive v hv).later
  | @register f fs hq =>
    refine ⟨?_, fun v hv => (hactive v hv).later, fun g hg v hv => (hqueue g hg v hv).later⟩
    show CurrentUpto t (n + 1) k (above f r.tables k)
    cases hf : f k with
    | none =>
      rw [above_of_none hf]
      exact htables.later
    | some v =>
      rw [above_of_some hf]
      exact (hqueue f (hq ▸ List.mem_cons_self) v hf).later
  | @retire f fs hq hcopied =>
    exact ⟨htables.later, fun v hv => (hactive v hv).later,
      fun g hg v hv => (hqueue g (hq ▸ List.mem_cons_of_mem _ hg) v hv).later⟩
  | idle =>
    exact ⟨htables.later, fun v hv => (hactive v hv).later,
      fun g hg v hv => (hqueue g hg v hv).later⟩

theorem recent_trace {t : Nat → LayeredStore κ ν} {n : Nat} {k : κ} (h : Trace t n)
    (hmiss : (t 0).memory k = none) : Recent t n k := by
  induction n with
  | zero => exact recent_start hmiss
  | succ n ih =>
    exact recent_step (ih fun i hi => h i (Nat.lt_succ_of_lt hi)) (h n (Nat.lt_succ_self n))

/-- **Lookups linearize**: the answer of a lookup that consults the memory of the
first state of a run and, if that holds nothing, the tables of the last, was the
store's answer at some moment of the run. -/
theorem lookup_linearizes {t : Nat → LayeredStore κ ν} {n : Nat} (h : Trace t n) (k : κ) :
    CurrentUpto t n k (((t 0).memory k).or ((t n).tables k)) := by
  cases hmem : (t 0).memory k with
  | some v => exact ⟨0, Nat.zero_le n, above_of_some hmem⟩
  | none => exact (recent_trace h hmem).tables

/-! ## A layer written at once -/

/-- On the keys of `K` a layer holds nothing, or all of `u`. -/
def WholeOrNone (u : Layer κ ν) (K : κ → Prop) (f : Layer κ ν) : Prop :=
  (∀ k, K k → f k = none) ∨ ∀ k, K k → f k = u k

/-- No layer in memory holds a part of `u` only, nor do the tables, which else answer as `old`. -/
structure Uniform (u old : Layer κ ν) (K : κ → Prop) (s : LayeredStore κ ν) : Prop where
  active : WholeOrNone u K s.active
  queue : ∀ f ∈ s.queue, WholeOrNone u K f
  tables : (∀ k, K k → s.tables k = old k) ∨ ∀ k, K k → s.tables k = u k

/-- A store without these keys in memory. -/
theorem uniform_of_absent {u : Layer κ ν} {K : κ → Prop} {s : LayeredStore κ ν}
    (h : ∀ k, K k → s.memory k = none) : Uniform u s.tables K s := by
  have hnone : ∀ k, K k → s.active k = none ∧ ∀ f ∈ s.queue, f k = none := by
    intro k hk
    obtain ⟨hactive, hqueue⟩ := Option.or_eq_none_iff.mp (h k hk)
    exact ⟨hactive, fun f hf => resolve_eq_none_iff.mp hqueue f (List.mem_reverse.mpr hf)⟩
  exact ⟨.inl fun k hk => (hnone k hk).1, fun f hf => .inl fun k hk => (hnone k hk).2 f hf, .inl fun _ _ => rfl⟩

theorem WholeOrNone.write {u v f : Layer κ ν} {K : κ → Prop} (h : WholeOrNone u K f)
    (hK : ∀ k, K k → u k ≠ none) (hv : v = u ∨ ∀ k, K k → v k = none) : WholeOrNone u K (above v f) := by
  rcases hv with rfl | hv
  · refine .inr ?_
    intro k hk
    obtain ⟨w, hw⟩ := Option.ne_none_iff_exists'.mp (hK k hk)
    rw [above_of_some hw, hw]
  · exact h.imp (fun h k hk => by rw [above_of_none (hv k hk), h k hk])
      fun h k hk => by rw [above_of_none (hv k hk), h k hk]

/-- **A step keeps a layer whole**, if it writes nothing else under these keys. -/
theorem uniform_step {u old : Layer κ ν} {K : κ → Prop} {s s' : LayeredStore κ ν} {e : Event κ ν}
    (h : Uniform u old K s) (hK : ∀ k, K k → u k ≠ none) (hstep : Step s e s')
    (he : ∀ v, e = .write v → v = u ∨ ∀ k, K k → v k = none) : Uniform u old K s' := by
  have hempty : WholeOrNone u K Layer.empty := .inl fun _ _ => rfl
  have hqueue : ∀ {g : Layer κ ν}, WholeOrNone u K g → ∀ f ∈ s.queue ++ [g], WholeOrNone u K f := by
    intro g hg f hf
    rcases List.mem_append.mp hf with hf | hf
    · exact h.queue f hf
    · rwa [List.mem_singleton.mp hf]
  cases hstep with
  | write v => exact ⟨h.active.write hK (he v rfl), h.queue, h.tables⟩
  | writeRotate v => exact ⟨hempty, hqueue (h.active.write hK (he v rfl)), h.tables⟩
  | rotateWrite v =>
    have hv := hempty.write hK (he v rfl)
    rw [above_empty] at hv
    exact ⟨hv, hqueue h.active, h.tables⟩
  | rotate => exact ⟨hempty, hqueue h.active, h.tables⟩
  | @register f fs hq =>
    refine ⟨h.active, h.queue, ?_⟩
    show (∀ k, K k → above f s.tables k = old k) ∨ ∀ k, K k → above f s.tables k = u k
    -- the copied layer holds none of these keys, or all of them
    rcases h.queue f (hq ▸ List.mem_cons_self) with hf | hf
    · exact h.tables.imp (fun h k hk => by rw [above_of_none (hf k hk), h k hk])
        fun h k hk => by rw [above_of_none (hf k hk), h k hk]
    · refine .inr ?_
      intro k hk
      obtain ⟨w, hw⟩ := Option.ne_none_iff_exists'.mp (hK k hk)
      rw [above_of_some ((hf k hk).trans hw), hw]
  | @retire f fs hq hcopied => exact ⟨h.active, fun g hg => h.queue g (hq ▸ List.mem_cons_of_mem _ hg), h.tables⟩
  | idle => exact h

end LayeredStore

end Logvine
