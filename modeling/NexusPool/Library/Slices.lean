import Mathlib.Tactic

/-!
# Slices of a vector

A vector is read through pairs of iterators, which may lie anywhere. A slice is such a pair, with
the size of the vector; it may be read only if both are iterators of the vector, in order.
-/

/-- The distances of two iterators from the begin of a vector. -/
structure Slice where
  first : ℤ
  last : ℤ
  size : ℕ
  deriving DecidableEq

namespace Slice

def Inside (s : Slice) : Prop := 0 ≤ s.first ∧ s.first ≤ s.last ∧ s.last ≤ s.size

instance (s : Slice) : Decidable s.Inside := inferInstanceAs (Decidable (_ ∧ _))

/-- None of the reads leaves its vector. -/
def AllInside (slices : List Slice) : Prop := ∀ s ∈ slices, s.Inside

instance (slices : List Slice) : Decidable (AllInside slices) :=
  inferInstanceAs (Decidable (∀ s ∈ slices, s.Inside))

@[simp] theorem allInside_nil : AllInside [] := by simp [AllInside]

@[simp] theorem allInside_cons (s : Slice) (slices : List Slice) :
    AllInside (s :: slices) ↔ s.Inside ∧ AllInside slices := by
  simp [AllInside]

@[simp] theorem allInside_append (slices slices' : List Slice) :
    AllInside (slices ++ slices') ↔ AllInside slices ∧ AllInside slices' := by
  simp [AllInside, or_imp, forall_and]

/-- The reads of a loop that takes `width` elements at each turn. -/
def chunks (width count size : ℕ) : List Slice :=
  (List.range count).map fun (index : ℕ) => ⟨index * width, index * width + width, size⟩

/-- The last turn is the one that may leave the vector. -/
theorem allInside_chunks (width count size : ℕ) :
    AllInside (chunks width count size) ↔ count * width ≤ size := by
  have hchunks : AllInside (chunks width count size) ↔
      ∀ index < count, index * width + width ≤ size := by
    simp only [AllInside, chunks, List.mem_map, List.mem_range, forall_exists_index, and_imp,
      forall_apply_eq_imp_iff₂, Inside]
    refine forall₂_congr fun index _ => ?_
    constructor
    · rintro ⟨-, -, hlast⟩
      exact_mod_cast hlast
    · intro hlast
      exact ⟨by positivity, by omega, by exact_mod_cast hlast⟩
  rw [hchunks]
  constructor
  · intro h
    cases count with
    | zero => simp
    | succ count =>
      have hlast := h count (Nat.lt_succ_self count)
      rwa [← Nat.succ_mul] at hlast
  · intro h index hindex
    calc index * width + width = (index + 1) * width := by ring
      _ ≤ count * width := Nat.mul_le_mul_right width hindex
      _ ≤ size := h

end Slice
