import Mathlib.Data.List.Nodup
import Mathlib.Tactic

/-!
# Arrays updated in place

A loop that replaces one element a turn, each at another position, makes each new element from
the old one. A loop that carries an element along, and writes it where it finds the next one to
carry, moves every element one position on along its walk.
-/

namespace InPlace

/-! ### Numerals as positions

Made local instances, these give a numeral one meaning wherever it is written. -/

theorem neZero_two : NeZero 2 := ⟨by decide⟩

theorem neZero_three : NeZero 3 := ⟨by decide⟩

theorem neZero_five : NeZero 5 := ⟨by decide⟩

/-! ### Single elements -/

variable {α ι : Type*} {n : ℕ}

/-- Each turn replaces the element at its position by what it makes of it. -/
def update (position : ι → Fin n) (change : ι → α → α) (v : Vector α n) (turns : List ι) :
    Vector α n :=
  turns.foldl (fun v i => v.set (position i) (change i v[position i])) v

/-- Each turn writes at its position what it makes of the carried element, and carries on what
was there before. -/
def carry (position : ι → Fin n) (change : ι → α → α) (held : α) (v : Vector α n)
    (turns : List ι) : Vector α n :=
  (turns.foldl (fun (s : α × Vector α n) i =>
    (s.2[position i], s.2.set (position i) (change i s.1))) (held, v)).2

variable {position : ι → Fin n} {change : ι → α → α} {held : α} {v : Vector α n}
  {turns : List ι} {i : ι} {k : Fin n}

theorem update_cons (i : ι) (turns : List ι) :
    update position change v (i :: turns) =
      update position change (v.set (position i) (change i v[position i])) turns := rfl

theorem carry_cons (i : ι) (turns : List ι) :
    carry position change held v (i :: turns) =
      carry position change v[position i] (v.set (position i) (change i held)) turns := rfl

/-- Where no turn writes, nothing changes. -/
theorem getElem_update_of_notMem (hk : k ∉ turns.map position) :
    (update position change v turns)[k] = v[k] := by
  induction turns generalizing v with
  | nil => rfl
  | cons i turns ih =>
    obtain ⟨hi, hturns⟩ : position i ≠ k ∧ k ∉ turns.map position := by
      simpa [not_or, eq_comm] using hk
    rw [update_cons, ih hturns]
    exact Vector.getElem_set_ne _ _ fun h => hi (Fin.ext h)

/-- A position that one turn writes gets what this turn makes of the element there at first. -/
theorem getElem_update_of_mem (hnodup : (turns.map position).Nodup) (hi : i ∈ turns) :
    (update position change v turns)[position i] = change i v[position i] := by
  induction turns generalizing v with
  | nil => cases hi
  | cons j turns ih =>
    obtain ⟨hj, hturns⟩ := List.nodup_cons.mp hnodup
    rw [update_cons]
    rcases List.mem_cons.mp hi with rfl | hi
    · rw [getElem_update_of_notMem hj]
      exact Vector.getElem_set_self _
    · have hne : position j ≠ position i := fun h => hj (h ▸ List.mem_map_of_mem hi)
      rw [ih hturns hi]
      exact congrArg (change i) (Vector.getElem_set_ne _ _ fun h => hne (Fin.ext h))

theorem getElem_carry_of_notMem (hk : k ∉ turns.map position) :
    (carry position change held v turns)[k] = v[k] := by
  induction turns generalizing held v with
  | nil => rfl
  | cons i turns ih =>
    obtain ⟨hi, hturns⟩ : position i ≠ k ∧ k ∉ turns.map position := by
      simpa [not_or, eq_comm] using hk
    rw [carry_cons, ih hturns]
    exact Vector.getElem_set_ne _ _ fun h => hi (Fin.ext h)

/-- The first turn writes the element that the walk was given. -/
theorem getElem_carry_head (hnodup : ((i :: turns).map position).Nodup) :
    (carry position change held v (i :: turns))[position i] = change i held := by
  rw [carry_cons, getElem_carry_of_notMem (List.nodup_cons.mp hnodup).1]
  exact Vector.getElem_set_self _

/-- Every later turn writes the element that was at the position of the turn before. -/
theorem getElem_carry_next {front back : List ι} {j : ι}
    (hnodup : ((front ++ j :: i :: back).map position).Nodup) :
    (carry position change held v (front ++ j :: i :: back))[position i] =
      change i v[position j] := by
  induction front generalizing held v with
  | nil =>
    rw [List.nil_append, carry_cons, getElem_carry_head (List.nodup_cons.mp hnodup).2]
  | cons l front ih =>
    obtain ⟨hl, hrest⟩ := List.nodup_cons.mp hnodup
    have hne : position l ≠ position j := fun h => hl (h ▸ List.mem_map_of_mem (by simp))
    rw [List.cons_append, carry_cons, ih hrest]
    exact congrArg (change i) (Vector.getElem_set_ne _ _ fun h => hne (Fin.ext h))

/-! ### Pairs -/

/-- Each turn replaces the elements at its two positions by what it makes of them. -/
def updatePairs (first second : ι → Fin n) (change : ι → α × α → α × α) (v : Vector α n)
    (turns : List ι) : Vector α n :=
  turns.foldl (fun v i =>
    let pair := change i (v[first i], v[second i])
    (v.set (first i) pair.1).set (second i) pair.2) v

variable {first second : ι → Fin n} {changePair : ι → α × α → α × α}

theorem updatePairs_cons (i : ι) (turns : List ι) :
    updatePairs first second changePair v (i :: turns) =
      updatePairs first second changePair
        ((v.set (first i) (changePair i (v[first i], v[second i])).1).set (second i)
          (changePair i (v[first i], v[second i])).2) turns := rfl

theorem getElem_updatePairs_of_ne (hfirst : ∀ j ∈ turns, first j ≠ k)
    (hsecond : ∀ j ∈ turns, second j ≠ k) :
    (updatePairs first second changePair v turns)[k] = v[k] := by
  induction turns generalizing v with
  | nil => rfl
  | cons j turns ih =>
    rw [updatePairs_cons, ih (fun l hl => hfirst l (List.mem_cons_of_mem _ hl))
      (fun l hl => hsecond l (List.mem_cons_of_mem _ hl))]
    have hj := hfirst j List.mem_cons_self
    have hj' := hsecond j List.mem_cons_self
    exact (Vector.getElem_set_ne _ _ fun h => hj' (Fin.ext h)).trans
      (Vector.getElem_set_ne _ _ fun h => hj (Fin.ext h))

/-- If all positions differ, each pair becomes what its turn makes of it. -/
theorem getElem_updatePairs (hfirst : Function.Injective first)
    (hsecond : Function.Injective second) (hne : ∀ i j, first i ≠ second j)
    (hnodup : turns.Nodup) (hi : i ∈ turns) :
    (updatePairs first second changePair v turns)[first i] =
        (changePair i (v[first i], v[second i])).1 ∧
      (updatePairs first second changePair v turns)[second i] =
        (changePair i (v[first i], v[second i])).2 := by
  induction turns generalizing v with
  | nil => cases hi
  | cons j turns ih =>
    obtain ⟨hj, hturns⟩ := List.nodup_cons.mp hnodup
    rw [updatePairs_cons]
    rcases List.mem_cons.mp hi with rfl | hmem
    · have hother : ∀ l ∈ turns, l ≠ i := by
        rintro l hl rfl
        exact hj hl
      rw [getElem_updatePairs_of_ne (fun l hl h => hother l hl (hfirst h))
          (fun l _ h => hne i l h.symm),
        getElem_updatePairs_of_ne (fun l _ h => hne l i h)
          (fun l hl h => hother l hl (hsecond h))]
      refine ⟨?_, Vector.getElem_set_self _⟩
      exact (Vector.getElem_set_ne _ _ fun h => hne i i (Fin.ext h.symm)).trans
        (Vector.getElem_set_self _)
    · have hij : i ≠ j := by
        rintro rfl
        exact hj hmem
      have hkeep : ∀ k : Fin n, first j ≠ k → second j ≠ k →
          ((v.set (first j) (changePair j (v[first j], v[second j])).1).set (second j)
            (changePair j (v[first j], v[second j])).2)[k] = v[k] := fun k hk hk' =>
        (Vector.getElem_set_ne _ _ fun h => hk' (Fin.ext h)).trans
          (Vector.getElem_set_ne _ _ fun h => hk (Fin.ext h))
      have hpair := ih (v := (v.set (first j) (changePair j (v[first j], v[second j])).1).set
        (second j) (changePair j (v[first j], v[second j])).2) hturns hmem
      rwa [hkeep (first i) (fun h => hij (hfirst h).symm) (fun h => hne i j h.symm),
        hkeep (second i) (fun h => hne j i h) (fun h => hij (hsecond h).symm)] at hpair

end InPlace
