import Mathlib

/-!
# Layers: partial maps stacked by recency

A *layer* is a partial map from keys to values. A reader that consults several
layers, newest first, and takes the first answer sees the layers' `resolve`.
Everything a log-structured store does to its data is an operation on such a
stack, so the laws of the stack are stated here once:

- `above` is associative with the empty layer as unit (`above_assoc`);
- a stack may be cut anywhere (`resolve_append`);
- a layer contained in what lies directly below it may be dropped, and repeating
  a layer below itself changes nothing (`above_of_below`);
- a layer may change places with the one below it exactly if the two do not
  contradict each other (`above_sink`, `below_of_above_eq`).
-/

namespace Logvine

universe u v

variable {κ : Type u} {ν : Type v}

/-- A partial map from keys to values. -/
abbrev Layer (κ : Type u) (ν : Type v) := κ → Option ν

namespace Layer

/-- The layer that holds no key. -/
def empty : Layer κ ν := fun _ => none

/-- `f` consulted first, `g` for the keys `f` does not hold. -/
def above (f g : Layer κ ν) : Layer κ ν := fun k => (f k).or (g k)

/-- The first answer of a stack of layers, newest first. -/
def resolve (ls : List (Layer κ ν)) : Layer κ ν := fun k => ls.findSome? fun f => f k

/-- Every entry of `f` is an entry of `g`. -/
def Below (f g : Layer κ ν) : Prop := ∀ k v, f k = some v → g k = some v

@[simp] theorem empty_above (f : Layer κ ν) : above empty f = f := rfl

/-- Nothing below changes nothing. -/
@[simp] theorem above_empty (f : Layer κ ν) : above f empty = f :=
  funext fun _ => Option.or_none

/-- Stacking is associative, so a stack needs no brackets. -/
theorem above_assoc (f g h : Layer κ ν) : above (above f g) h = above f (above g h) :=
  funext fun _ => Option.or_assoc

theorem above_apply (f g : Layer κ ν) (k : κ) : above f g k = (f k).or (g k) := rfl

/-- What the upper layer knows, it answers. -/
theorem above_of_some {f g : Layer κ ν} {k : κ} {v : ν} (h : f k = some v) :
    above f g k = some v := by
  rw [above_apply, h]
  rfl

/-- What the upper layer does not know, the lower one answers. -/
theorem above_of_none {f g : Layer κ ν} {k : κ} (h : f k = none) : above f g k = g k := by
  rw [above_apply, h]
  rfl

@[simp] theorem resolve_nil : resolve ([] : List (Layer κ ν)) = empty := rfl

@[simp] theorem resolve_cons (f : Layer κ ν) (ls : List (Layer κ ν)) :
    resolve (f :: ls) = above f (resolve ls) := by
  funext k
  show (f :: ls).findSome? (fun g => g k) = (f k).or (ls.findSome? fun g => g k)
  rw [List.findSome?_cons]
  cases f k <;> rfl

/-- A stack can be cut anywhere: the front part lies above the rest. -/
theorem resolve_append (ls ms : List (Layer κ ν)) :
    resolve (ls ++ ms) = above (resolve ls) (resolve ms) :=
  funext fun _ => List.findSome?_append

theorem resolve_singleton (f : Layer κ ν) : resolve [f] = f := by
  rw [resolve_cons, resolve_nil, above_empty]

/-- The stack knows nothing of a key exactly when no layer of it does. -/
theorem resolve_eq_none_iff {ls : List (Layer κ ν)} {k : κ} :
    resolve ls k = none ↔ ∀ f ∈ ls, f k = none :=
  List.findSome?_eq_none_iff

/-- Every answer comes from some layer. -/
theorem exists_of_resolve {ls : List (Layer κ ν)} {k : κ} {v : ν} (h : resolve ls k = some v) :
    ∃ f ∈ ls, f k = some v :=
  List.exists_of_findSome?_eq_some h

theorem empty_below (f : Layer κ ν) : Below empty f := fun _ _ h => nomatch h

/-- A layer lies below whatever is stacked under it. -/
theorem below_above_left (f g : Layer κ ν) : Below f (above f g) := fun _ _ h => above_of_some h

/-- A layer contained in what lies below it is redundant. -/
theorem above_of_below {f g : Layer κ ν} (h : Below f g) : above f g = g := by
  funext k
  cases hk : f k with
  | none => exact above_of_none hk
  | some v => rw [above_of_some hk, h k v hk]

/-- A stack of layers that are all contained in `g` is contained in `g`. -/
theorem below_resolve {ls : List (Layer κ ν)} {g : Layer κ ν} (h : ∀ f ∈ ls, Below f g) :
    Below (resolve ls) g := by
  intro k v hk
  obtain ⟨f, hf, hfk⟩ := exists_of_resolve hk
  exact h f hf k v hfk

/-- A layer may sink below another one that does not contradict it, leaving any part
of itself on top. -/
theorem above_sink {r l a x : Layer κ ν} (hr : Below r l) (ha : Below l (above a l)) :
    above r (above a (above l x)) = above l (above a x) := by
  funext k
  -- where `l` holds the key, `r` and `a` do not contradict it; elsewhere `r` holds nothing either
  cases hl : l k with
  | some v =>
    rw [above_of_some hl]
    cases hrk : r k with
    | some w => rw [above_of_some hrk, ← hl, hr k w hrk]
    | none =>
      rw [above_of_none hrk, ← above_assoc]
      exact above_of_some (ha k v hl)
  | none =>
    have hrk : r k = none := by
      by_contra hne
      obtain ⟨w, hw⟩ := Option.ne_none_iff_exists'.mp hne
      rw [hr k w hw] at hl
      cases hl
    rw [above_of_none hrk, above_of_none hl, above_apply, above_of_none hl, above_apply]

/-- It may not sink below one that contradicts it. -/
theorem below_of_above_eq {l a x : Layer κ ν} (h : above a (above l x) = above l (above a x)) :
    Below l (above a l) := by
  intro k v hk
  have hk' : above a (above l x) k = some v := by rw [h, above_of_some hk]
  rw [above_apply, above_of_some hk] at hk'
  rw [above_apply, hk, hk']

/-- Writing a layer twice in a row is writing it once. -/
theorem above_above_self (f g : Layer κ ν) : above f (above f g) = above f g :=
  above_of_below (below_above_left f g)

end Layer

end Logvine
