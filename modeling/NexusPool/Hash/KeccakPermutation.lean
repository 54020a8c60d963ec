import NexusPool.Hash.KeccakRounds

/-!
# Keccak-f[1600] is a permutation

Each step mapping can be undone. The diffusion of the columns is linear: what it sends to zero
is a row of columns of which each is the sum of the one before it and the rotated one behind it.
Six doublings turn the rotation into one by the width, so that each column is the sum of its two
neighbours, and on a circle of five columns they all vanish.
-/

namespace NexusPool

open Rotation

attribute [local instance] InPlace.neZero_five

namespace Keccak

variable {A B : StateArray}

/-! ### The diffusion of the columns -/

section Columns

variable {c : Fin 5 → UInt64}

theorem doubled {m : Fin 5} {r : ℕ} (h : ∀ x, c x = c (x - m) ^^^ rotl (c (x + m)) r) (x : Fin 5) :
    c x = c (x - (m + m)) ^^^ rotl (c (x + (m + m))) (r + r) := by
  have hbefore : c (x - m) = c (x - (m + m)) ^^^ rotl (c x) r := by
    have h₁ := h (x - m)
    rwa [sub_add_cancel, sub_sub] at h₁
  have hafter : rotl (c (x + m)) r = rotl (c x) r ^^^ rotl (c (x + (m + m))) (r + r) := by
    have h₁ := h (x + m)
    rw [add_sub_cancel_right, add_assoc] at h₁
    rw [h₁, rotl_xor, rotl_rotl]
  rw [h x, hbefore, hafter, UInt64.xor_assoc, ← UInt64.xor_assoc (rotl (c x) r),
    UInt64.xor_self, UInt64.zero_xor]

/-- The distance is a power of two modulo five, the rotation the power itself. -/
theorem doubled_iterate (h : ∀ x, c x = c (x - 1) ^^^ rotl (c (x + 1)) 1) (k : ℕ) (x : Fin 5) :
    c x = c (x - 2 ^ k) ^^^ rotl (c (x + 2 ^ k)) (2 ^ k) := by
  induction k generalizing x with
  | zero => simpa using h x
  | succ k ih =>
    have hdouble : ∀ m : Fin 5, m * 2 = m + m := by decide
    rw [pow_succ, pow_succ, hdouble, Nat.mul_two]
    exact doubled ih x

theorem neighbours (h : ∀ x, c x = c (x - 1) ^^^ rotl (c (x + 1)) 1) (x : Fin 5) :
    c x = c (x + 1) ^^^ c (x - 1) := by
  have hbefore : ∀ x : Fin 5, x - 2 ^ 6 = x + 1 := by decide
  have hafter : ∀ x : Fin 5, x + 2 ^ 6 = x - 1 := by decide
  have hwidth := doubled_iterate h 6 x
  rwa [hbefore, hafter, rotl_of_dvd _ _ (by decide)] at hwidth

/-- Columns that are the sums of their neighbours have period three, and on the circle period
five. -/
theorem columns_eq_zero (h : ∀ x, c x = c (x - 1) ^^^ rotl (c (x + 1)) 1) (x : Fin 5) :
    c x = 0 := by
  have hnext : ∀ x, c (x + 1) = c x ^^^ c (x - 1) := by
    intro x
    rw [neighbours h x, UInt64.xor_assoc, UInt64.xor_self, UInt64.xor_zero]
  have hperiod : ∀ x, c (x + 3) = c x := by
    intro x
    have hthree : ∀ x : Fin 5, x + 3 = x + 1 + 1 + 1 := by decide
    rw [hthree, hnext (x + 1 + 1), hnext (x + 1), add_sub_cancel_right, add_sub_cancel_right,
      UInt64.xor_comm (c (x + 1)), UInt64.xor_assoc, UInt64.xor_self, UInt64.xor_zero]
  have hsame : ∀ x, c (x + 1) = c x := by
    intro x
    have hsix : ∀ x : Fin 5, x + 1 = x + 3 + 3 := by decide
    rw [hsix, hperiod, hperiod]
  have hzero := hnext x
  rwa [hsame, ← hsame (x - 1), sub_add_cancel, UInt64.xor_self] at hzero

end Columns

/-- The diffusion is linear. -/
theorem theta_xor (x y : Fin 5) :
    theta A x y ^^^ theta B x y = (A x y ^^^ B x y) ^^^
      ((column A (x - 1) ^^^ column B (x - 1)) ^^^
        rotl (column A (x + 1) ^^^ column B (x + 1)) 1) := by
  rw [rotl_xor]
  unfold theta
  ac_rfl

theorem column_xor (x : Fin 5) :
    column A x ^^^ column B x = (A x 0 ^^^ B x 0) ^^^ (A x 1 ^^^ B x 1) ^^^
      (A x 2 ^^^ B x 2) ^^^ (A x 3 ^^^ B x 3) ^^^ (A x 4 ^^^ B x 4) := by
  unfold column
  ac_rfl

theorem theta_injective : Function.Injective theta := by
  intro A B h
  -- The columns of the difference of the two states determine the difference.
  have hdiff : ∀ x y, A x y ^^^ B x y = (column A (x - 1) ^^^ column B (x - 1)) ^^^
      rotl (column A (x + 1) ^^^ column B (x + 1)) 1 := by
    intro x y
    rw [← UInt64.xor_eq_zero_iff, ← theta_xor, h, UInt64.xor_self]
  have hcolumns : ∀ x, column A x ^^^ column B x = 0 := by
    refine columns_eq_zero fun x => ?_
    rw [column_xor, hdiff, hdiff, hdiff, hdiff, hdiff, UInt64.xor_self, UInt64.zero_xor,
      UInt64.xor_self, UInt64.zero_xor]
  funext x y
  have hzero := hdiff x y
  rwa [hcolumns, hcolumns, UInt64.zero_xor, zero_rotl, UInt64.xor_eq_zero_iff] at hzero

/-! ### The other steps -/

theorem rho_injective : Function.Injective rho := by
  intro A B h
  funext x y
  exact rotl_injective _ (congrFun (congrFun h x) y)

/-- The lane of column `x` and row `y` goes to column `y` and row `2 * x + 3 * y`. -/
theorem pi_injective : Function.Injective pi := by
  intro A B h
  funext x y
  have hlane := congrFun (congrFun h y) (2 * x + 3 * y)
  have hcolumn : ∀ x y : Fin 5, y + 3 * (2 * x + 3 * y) = x := by decide
  simpa only [pi, hcolumn] using hlane

/-- On each row of five bits, the mapping that undoes `chi`. -/
theorem chi_bits : ∀ a b c d e : Bool,
    let b' := b ^^ (!c && d)
    let c' := c ^^ (!d && e)
    let d' := d ^^ (!e && a)
    let e' := e ^^ (!a && b)
    ((a ^^ (!b && c)) ^^ (!b' && (c' ^^ (!d' && e')))) = a := by decide

def chiInverse (A : StateArray) : StateArray := fun x y =>
  A x y ^^^ (~~~A (x + 1) y &&& (A (x + 2) y ^^^ (~~~A (x + 3) y &&& A (x + 4) y)))

theorem chiInverse_chi (A : StateArray) : chiInverse (chi A) = A := by
  funext x y
  have hfive : ∀ x : Fin 5, x + 1 + 1 = x + 2 ∧ x + 1 + 2 = x + 3 ∧ x + 2 + 1 = x + 3 ∧
      x + 2 + 2 = x + 4 ∧ x + 3 + 1 = x + 4 ∧ x + 3 + 2 = x ∧ x + 4 + 1 = x ∧
      x + 4 + 2 = x + 1 := by decide
  obtain ⟨h₁, h₂, h₃, h₄, h₅, h₆, h₇, h₈⟩ := hfive x
  simp only [chiInverse, chi, h₁, h₂, h₃, h₄, h₅, h₆, h₇, h₈]
  apply UInt64.eq_of_toBitVec_eq
  apply BitVec.eq_of_getLsbD_eq
  intro i hi
  simp only [UInt64.toBitVec_xor, UInt64.toBitVec_and, UInt64.toBitVec_not, BitVec.getLsbD_xor,
    BitVec.getLsbD_and, BitVec.getLsbD_not, hi, decide_true, Bool.true_and]
  exact chi_bits _ _ _ _ _

theorem iota_injective (ir : ℕ) : Function.Injective (iota ir) := by
  intro A B h
  funext x y
  have hlane := congrFun (congrFun h x) y
  simp only [iota] at hlane
  split_ifs at hlane
  · exact (UInt64.xor_left_inj _).mp hlane
  · exact hlane

theorem round_injective (ir : ℕ) : Function.Injective (round · ir) := fun _ _ h =>
  theta_injective (rho_injective (pi_injective ((Function.LeftInverse.injective chiInverse_chi)
    (iota_injective ir h))))

theorem keccakF_injective : Function.Injective keccakF := by
  have hrounds : ∀ n, Function.Injective fun A => (List.range n).foldl round A := by
    intro n
    induction n with
    | zero => exact Function.injective_id
    | succ n ih =>
      simp only [List.range_succ, List.foldl_append]
      exact (round_injective n).comp ih
  exact hrounds 24

end Keccak

/-! ### The bytes of the state -/

namespace KeccakF1600

theorem permuteLanes_injective : Function.Injective permuteLanes := by
  intro state state' h
  apply stateArray_injective
  apply Keccak.keccakF_injective
  rw [← stateArray_permuteLanes, ← stateArray_permuteLanes, h]

theorem statePermute_injective : Function.Injective statePermute := by
  intro state state' h
  have hlanes : lanes state = lanes state' :=
    permuteLanes_injective (Function.LeftInverse.injective lanes_ofLanes h)
  exact Function.LeftInverse.injective ofLanes_lanes hlanes

instance finite_byte : Finite UInt8 := Finite.of_injective UInt8.toFin fun _ _ => UInt8.toFin_inj.mp

instance finite_keccakState : Finite KeccakState :=
  Finite.of_injective (fun (state : KeccakState) (i : Fin 200) => state[i]) fun state state' h =>
    Vector.ext fun i hi => congrFun h ⟨i, hi⟩

/-- No two states become the same, and every state is reached. -/
theorem statePermute_bijective : Function.Bijective statePermute :=
  Finite.injective_iff_bijective.mp statePermute_injective

end KeccakF1600

end NexusPool
