import Mathlib.Tactic

/-!
# Loops that touch one part at a time

A loop over distinct items, where each turn changes what is seen through a `view` only if
the item is the one the view belongs to, acts on that view like the single turn of that
item. A loop whose turns add to an accumulator adds up what the turns add.
-/

namespace Loop

variable {X S W : Type} {turn : S → X → S} {Inv : S → Prop} {xs : List X}

theorem foldl_inv (hinv : ∀ x ∈ xs, ∀ s, Inv s → Inv (turn s x)) {s : S} (hs : Inv s) :
    Inv (xs.foldl turn s) := by
  induction xs generalizing s with
  | nil => exact hs
  | cons x xs ih =>
    exact ih (fun y hy => hinv y (List.mem_cons_of_mem _ hy)) (hinv x List.mem_cons_self s hs)

theorem foldl_frame (view : S → W) (hinv : ∀ x ∈ xs, ∀ s, Inv s → Inv (turn s x))
    (hframe : ∀ x ∈ xs, ∀ s, Inv s → view (turn s x) = view s) {s : S} (hs : Inv s) :
    view (xs.foldl turn s) = view s := by
  induction xs generalizing s with
  | nil => rfl
  | cons x xs ih =>
    have hrest := ih (fun y hy => hinv y (List.mem_cons_of_mem _ hy))
      (fun y hy => hframe y (List.mem_cons_of_mem _ hy)) (hinv x List.mem_cons_self s hs)
    exact hrest.trans (hframe x List.mem_cons_self s hs)

theorem foldl_fixed (hfixed : ∀ x ∈ xs, ∀ s, turn s x = s) (s : S) : xs.foldl turn s = s := by
  induction xs with
  | nil => rfl
  | cons x xs ih =>
    rw [List.foldl_cons, hfixed x List.mem_cons_self]
    exact ih fun y hy => hfixed y (List.mem_cons_of_mem _ hy)

/-- A view that only the turn of `x` changes is changed by the loop as by that turn. -/
theorem foldl_of_mem (view : S → W) (hinv : ∀ x ∈ xs, ∀ s, Inv s → Inv (turn s x)) {x : X}
    (hx : x ∈ xs) (hnodup : xs.Nodup)
    (hframe : ∀ y ∈ xs, y ≠ x → ∀ s, Inv s → view (turn s y) = view s) (change : W → W)
    (hchange : ∀ s, Inv s → view (turn s x) = change (view s)) {s : S} (hs : Inv s) :
    view (xs.foldl turn s) = change (view s) := by
  obtain ⟨front, back, rfl⟩ := List.append_of_mem hx
  obtain ⟨-, hback, hdisjoint⟩ := List.nodup_append.mp hnodup
  have hnotFront : ∀ y ∈ front, y ≠ x := fun y hy => hdisjoint y hy x List.mem_cons_self
  have hnotBack : ∀ y ∈ back, y ≠ x := by
    rintro y hy rfl
    exact (List.nodup_cons.mp hback).1 hy
  have hinvFront : ∀ y ∈ front, ∀ s, Inv s → Inv (turn s y) := fun y hy =>
    hinv y (List.mem_append_left _ hy)
  have hinvBack : ∀ y ∈ back, ∀ s, Inv s → Inv (turn s y) := fun y hy =>
    hinv y (List.mem_append_right _ (List.mem_cons_of_mem _ hy))
  have hmid := foldl_inv hinvFront hs
  calc
    _ = view (back.foldl turn (turn (front.foldl turn s) x)) := by
      rw [List.foldl_append, List.foldl_cons]
    _ = view (turn (front.foldl turn s) x) :=
      foldl_frame view hinvBack
        (fun y hy => hframe y (List.mem_append_right _ (List.mem_cons_of_mem _ hy)) (hnotBack y hy))
        (hinv x hx _ hmid)
    _ = change (view (front.foldl turn s)) := hchange _ hmid
    _ = change (view s) := by
      rw [foldl_frame view hinvFront
        (fun y hy => hframe y (List.mem_append_left _ hy) (hnotFront y hy)) hs]

theorem foldl_sum {V : Type} [AddCommMonoid V] (acc : S → V) (g : X → V)
    (hinv : ∀ x ∈ xs, ∀ s, Inv s → Inv (turn s x))
    (hadd : ∀ x ∈ xs, ∀ s, Inv s → acc (turn s x) = acc s + g x) {s : S} (hs : Inv s) :
    acc (xs.foldl turn s) = acc s + (xs.map g).sum := by
  induction xs generalizing s with
  | nil => simp
  | cons x xs ih =>
    have hrest := ih (fun y hy => hinv y (List.mem_cons_of_mem _ hy))
      (fun y hy => hadd y (List.mem_cons_of_mem _ hy)) (hinv x List.mem_cons_self s hs)
    rw [List.foldl_cons, hrest, hadd x List.mem_cons_self s hs, List.map_cons, List.sum_cons,
      add_assoc]

/-! ### Erasing while walking -/

section Erase

variable (p : X → Bool)

/-- `for (iter = begin() + i; iter != end(); ++iter) if (p(*iter)) { iter = erase(iter); continue;
}`. After an erasure the iterator stands at the item that has moved up, and the increment of the
loop still follows. `none` where that leaves the end. -/
def eraseWalk (i : ℕ) (items : List X) : Option (List X) :=
  if h : i < items.length then
    if p items[i] then
      if i < (items.eraseIdx i).length then eraseWalk (i + 1) (items.eraseIdx i) else none
    else eraseWalk (i + 1) items
  else some items
termination_by items.length - i
decreasing_by
  · rw [List.length_eraseIdx_of_lt h]
    omega
  · omega

/-- The walk over what is left of the items: an erased item takes the next one along unseen. -/
def sweep : List X → Option (List X)
  | [] => some []
  | [x] => if p x then none else some [x]
  | x :: y :: rest => if p x then (sweep rest).map (y :: ·) else (sweep (y :: rest)).map (x :: ·)

/-- Every item to be erased stands before one to be kept. -/
def Separated (items : List X) : Prop :=
  ∀ i x, items[i]? = some x → p x → ∃ y, items[i + 1]? = some y ∧ ¬ p y

variable {p}

theorem eraseWalk_keep {front : List X} {x : X} {back : List X} (hx : ¬ p x) :
    eraseWalk p front.length (front ++ x :: back) =
      eraseWalk p (front ++ [x]).length ((front ++ [x]) ++ back) := by
  rw [eraseWalk]
  simp [hx]

theorem eraseWalk_erase {front : List X} {x y : X} {back : List X} (hx : p x) :
    eraseWalk p front.length (front ++ x :: y :: back) =
      eraseWalk p (front ++ [y]).length ((front ++ [y]) ++ back) := by
  rw [eraseWalk]
  simp [hx, List.eraseIdx_append_of_length_le]

theorem eraseWalk_append (front back : List X) :
    eraseWalk p front.length (front ++ back) = (sweep p back).map (front ++ ·) := by
  induction back using sweep.induct p generalizing front with
  | case1 => simp [eraseWalk, sweep]
  | case2 x hx => simp [eraseWalk, sweep, hx, List.eraseIdx_append_of_length_le]
  | case3 x hx => simp [eraseWalk_keep hx, eraseWalk, sweep, hx]
  | case4 x y rest hx ih =>
    rw [eraseWalk_erase hx, ih, sweep, if_pos hx, Option.map_map]
    simp [Function.comp_def]
  | case5 x y rest hx ih =>
    rw [eraseWalk_keep hx, ih, sweep, if_neg hx, Option.map_map]
    simp [Function.comp_def]

theorem eraseWalk_zero (items : List X) : eraseWalk p 0 items = sweep p items := by
  simpa using eraseWalk_append (p := p) [] items

theorem separated_cons_of_keep {x : X} {items : List X} (hx : ¬ p x) :
    Separated p (x :: items) ↔ Separated p items := by
  constructor
  · intro h i
    exact h (i + 1)
  · rintro h (_ | i) y hy hp
    · cases hy
      exact absurd hp hx
    · exact h i y hy hp

theorem separated_cons_of_erase {x y : X} {items : List X} (hx : p x) :
    Separated p (x :: y :: items) ↔ ¬ p y ∧ Separated p items := by
  constructor
  · intro h
    obtain ⟨z, hz, hkeep⟩ := h 0 x rfl hx
    cases hz
    exact ⟨hkeep, fun i => h (i + 2)⟩
  · rintro ⟨hkeep, h⟩ (_ | i) z hz hp
    · exact ⟨y, rfl, hkeep⟩
    · exact (separated_cons_of_keep hkeep).mpr h i z hz hp

/-- Whatever the walk leaves, it erases nothing that is to be kept. -/
theorem filter_of_sweep {items items' : List X} (h : sweep p items = some items') :
    items'.filter (fun x => !p x) = items.filter fun x => !p x := by
  induction items using sweep.induct p generalizing items' with
  | case1 =>
    cases h
    rfl
  | case2 x hx => simp [sweep, hx] at h
  | case3 x hx =>
    rw [sweep, if_neg hx] at h
    cases h
    rfl
  | case4 x y rest hx ih =>
    rw [sweep, if_pos hx] at h
    obtain ⟨rest', hrest, rfl⟩ := Option.map_eq_some_iff.mp h
    simp [List.filter_cons, ih hrest, hx]
  | case5 x y rest hx ih =>
    rw [sweep, if_neg hx] at h
    obtain ⟨rest', hrest, rfl⟩ := Option.map_eq_some_iff.mp h
    rw [List.filter_cons_of_pos (by simp [hx]), List.filter_cons_of_pos (by simp [hx]), ih hrest]

/-- The walk erases exactly what it should if no two such items are neighbours and none is last. -/
theorem sweep_eq_filter_iff (items : List X) :
    sweep p items = some (items.filter fun x => !p x) ↔ Separated p items := by
  induction items using sweep.induct p with
  | case1 => simp [sweep, Separated]
  | case2 x hx =>
    have hlast : ¬ Separated p [x] := fun h => by
      obtain ⟨y, hy, -⟩ := h 0 x rfl hx
      cases hy
    simp [sweep, hx, hlast]
  | case3 x hx =>
    have hnone : Separated p ([] : List X) := fun i y hy => by simp at hy
    simp [sweep, hx, separated_cons_of_keep hx, hnone]
  | case4 x y rest hx ih =>
    rw [sweep, if_pos hx, separated_cons_of_erase hx, ← ih]
    by_cases hy : p y
    · -- the next item stays although it should go
      have hne : (sweep p rest).map (y :: ·) ≠ some ((x :: y :: rest).filter fun x => !p x) := by
        intro h
        obtain ⟨rest', -, heq⟩ := Option.map_eq_some_iff.mp h
        have hmem : y ∈ (x :: y :: rest).filter fun x => !p x := heq ▸ List.mem_cons_self
        simp [hy] at hmem
      simp [hne, hy]
    · simp [hx, hy]
  | case5 x y rest hx ih =>
    rw [sweep, if_neg hx, separated_cons_of_keep hx, ← ih]
    rw [List.filter_cons_of_pos (by simp [hx]), ← Option.map_some]
    exact (Option.map_injective (List.cons_injective)).eq_iff

end Erase

end Loop
