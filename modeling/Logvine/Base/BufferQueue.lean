import Mathlib

/-!
# Buffers in front of a log

Elements that have been logged are collected in an active buffer. A buffer is frozen
together with an offset into the log, the frozen ones wait in a queue, and once the
oldest has been dropped its offset is the *floor* below which the log is about to be
cut.

- `contents`: what is in the buffers, oldest first; freezing changes nothing about it
  (`contents_freeze`);
- `Ordered`: every element lies at or behind the floor and the offsets of all buffers
  frozen before it, so that no cut reaches what is in a buffer;
- `Sealed`: a position of the log at which an element may still be pushed.
-/

namespace Logvine

universe u

/-- The frozen buffers with their offsets, oldest first, the active one with the offset
it will be frozen with, and the floor. -/
structure BufferQueue (ε : Type u) where
  floor : Nat
  frozen : List (List ε × Nat)
  active : List ε
  offset : Nat

namespace BufferQueue

variable {ε : Type u}

/-- No buffer has been frozen and nothing collected. -/
def empty : BufferQueue ε := ⟨0, [], [], 0⟩

/-- Collect some elements. -/
def push (q : BufferQueue ε) (es : List ε) : BufferQueue ε := { q with active := q.active ++ es }

/-- The active buffer is to be frozen with this offset. -/
def reach (q : BufferQueue ε) (offset : Nat) : BufferQueue ε := { q with offset := offset }

/-- Freeze the active buffer. -/
def freeze (q : BufferQueue ε) : BufferQueue ε :=
  { q with frozen := q.frozen ++ [(q.active, q.offset)], active := [], offset := 0 }

/-- Drop the oldest frozen buffer. -/
def drop (q : BufferQueue ε) : BufferQueue ε :=
  match q.frozen with
  | [] => q
  | p :: rest => { q with floor := p.2, frozen := rest }

/-- The log has been cut. -/
def cut (q : BufferQueue ε) : BufferQueue ε := { q with floor := 0 }

/-- What is in the buffers. -/
def contents (q : BufferQueue ε) : List ε := q.frozen.flatMap Prod.fst ++ q.active

/-- What is added is added at the end. -/
@[simp] theorem contents_push (q : BufferQueue ε) (es : List ε) : (q.push es).contents = q.contents ++ es :=
  (List.append_assoc ..).symm

/-- An offset that is reached is no part of the contents. -/
@[simp] theorem contents_reach (q : BufferQueue ε) (offset : Nat) : (q.reach offset).contents = q.contents := rfl

/-- Freezing moves entries from one buffer to another; nothing is lost. -/
@[simp] theorem contents_freeze (q : BufferQueue ε) : q.freeze.contents = q.contents := by
  show (q.frozen ++ [(q.active, q.offset)]).flatMap Prod.fst ++ [] = _
  rw [List.flatMap_append, List.flatMap_singleton, List.append_nil]
  rfl

@[simp] theorem contents_cut (q : BufferQueue ε) : q.cut.contents = q.contents := rfl

/-- Dropping takes the oldest frozen buffer and remembers the offset it was frozen with. -/
theorem drop_of_frozen {q : BufferQueue ε} {p : List ε × Nat} {rest : List (List ε × Nat)}
    (h : q.frozen = p :: rest) : q.drop = { q with floor := p.2, frozen := rest } := by
  rw [drop, h]

/-- What is dropped is the front of the contents. -/
theorem contents_drop {q : BufferQueue ε} {p : List ε × Nat} {rest : List (List ε × Nat)}
    (h : q.frozen = p :: rest) : q.contents = p.1 ++ q.drop.contents := by
  rw [drop_of_frozen h, contents, h, List.flatMap_cons, List.append_assoc]
  rfl

theorem frozen_drop (q : BufferQueue ε) : q.drop.frozen = q.frozen.tail := by
  unfold drop
  split
  · next h => rw [h, List.tail_nil]
  · next h => rw [h, List.tail_cons]

/-! ## What a cut may reach -/

/-- No cut reaches this position. -/
structure Sealed (q : BufferQueue ε) (position : Nat) : Prop where
  floor : q.floor ≤ position
  frozen : ∀ p ∈ q.frozen, p.2 ≤ position

/-- No cut reaches an element in the buffers. -/
structure Ordered (position : ε → Nat) (q : BufferQueue ε) : Prop where
  floor : ∀ x ∈ q.contents, q.floor ≤ position x
  frozen : q.frozen.Pairwise fun p p' => ∀ x ∈ p'.1, p.2 ≤ position x
  active : ∀ p ∈ q.frozen, ∀ x ∈ q.active, p.2 ≤ position x

variable {position : ε → Nat} {q : BufferQueue ε} {n : Nat}

/-- Nothing is frozen yet. -/
theorem sealed_empty (n : Nat) : (empty : BufferQueue ε).Sealed n :=
  ⟨Nat.zero_le n, fun _ hp => absurd hp List.not_mem_nil⟩

theorem Sealed.push (h : q.Sealed n) (es : List ε) : (q.push es).Sealed n := ⟨h.floor, h.frozen⟩

theorem Sealed.reach (h : q.Sealed n) (offset : Nat) : (q.reach offset).Sealed n := ⟨h.floor, h.frozen⟩

/-- A buffer is frozen with the offset reached; that has to be below the bound. -/
theorem Sealed.freeze (h : q.Sealed n) (hoffset : q.offset ≤ n) : q.freeze.Sealed n := by
  refine ⟨h.floor, ?_⟩
  intro p hp
  rcases List.mem_append.mp hp with hp | hp
  · exact h.frozen p hp
  · rw [List.mem_singleton.mp hp]
    exact hoffset

/-- The offset of the dropped buffer becomes the floor, and was below the bound already. -/
theorem Sealed.drop (h : q.Sealed n) : q.drop.Sealed n := by
  cases hq : q.frozen with
  | nil =>
    rw [BufferQueue.drop, hq]
    exact h
  | cons p rest =>
    rw [drop_of_frozen hq]
    have hfrozen := h.frozen
    rw [hq] at hfrozen
    exact ⟨hfrozen p List.mem_cons_self, fun p' hp' => hfrozen p' (List.mem_cons_of_mem _ hp')⟩

theorem Sealed.cut (h : q.Sealed n) : q.cut.Sealed n := ⟨Nat.zero_le n, h.frozen⟩

/-- A bound may be raised. -/
theorem Sealed.mono {m : Nat} (h : q.Sealed n) (hle : n ≤ m) : q.Sealed m :=
  ⟨h.floor.trans hle, fun p hp => (h.frozen p hp).trans hle⟩

/-- A queue of one buffer. -/
theorem ordered_active (position : ε → Nat) {active : List ε} {offset : Nat} :
    Ordered position ⟨0, [], active, offset⟩ :=
  ⟨fun _ _ => Nat.zero_le _, List.Pairwise.nil, fun _ hp => absurd hp List.not_mem_nil⟩

/-- New entries go to the active buffer, behind everything that was frozen. -/
theorem Ordered.push (h : Ordered position q) {es : List ε} (hes : ∀ x ∈ es, q.Sealed (position x)) :
    Ordered position (q.push es) := by
  refine ⟨?_, h.frozen, ?_⟩
  · intro x hx
    rw [contents_push] at hx
    rcases List.mem_append.mp hx with hx | hx
    · exact h.floor x hx
    · exact (hes x hx).floor
  · intro p hp x hx
    rcases List.mem_append.mp hx with hx | hx
    · exact h.active p hp x hx
    · exact (hes x hx).frozen p hp

theorem Ordered.reach (h : Ordered position q) (offset : Nat) : Ordered position (q.reach offset) :=
  ⟨h.floor, h.frozen, h.active⟩

/-- Freezing keeps the order: the active buffer becomes the youngest frozen one. -/
theorem Ordered.freeze (h : Ordered position q) : Ordered position q.freeze := by
  refine ⟨?_, ?_, fun _ _ x hx => absurd hx List.not_mem_nil⟩
  · rw [contents_freeze]
    exact h.floor
  · refine List.pairwise_append.mpr ⟨h.frozen, List.pairwise_singleton _ _, ?_⟩
    intro p hp p' hp'
    rw [List.mem_singleton.mp hp']
    exact h.active p hp

/-- What is left behind the dropped buffer was ordered before. -/
theorem Ordered.drop (h : Ordered position q) : Ordered position q.drop := by
  cases hq : q.frozen with
  | nil =>
    rw [BufferQueue.drop, hq]
    exact h
  | cons p rest =>
    have hfrozen := h.frozen
    have hactive := h.active
    rw [hq] at hfrozen hactive
    obtain ⟨hhead, hrest⟩ := List.pairwise_cons.mp hfrozen
    rw [drop_of_frozen hq]
    -- the offset of the dropped buffer becomes the floor: it was below everything behind it
    refine ⟨?_, hrest, fun p' hp' => hactive p' (List.mem_cons_of_mem _ hp')⟩
    intro x hx
    rcases List.mem_append.mp hx with hx | hx
    · obtain ⟨p', hp', hmem⟩ := List.mem_flatMap.mp hx
      exact hhead p' hp' x hmem
    · exact hactive p List.mem_cons_self x hx

/-- Nothing is behind a floor of zero. -/
theorem Ordered.cut (h : Ordered position q) : Ordered position q.cut :=
  ⟨fun _ _ => Nat.zero_le _, h.frozen, h.active⟩

end BufferQueue

end Logvine
