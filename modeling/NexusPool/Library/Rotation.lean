import Mathlib.Tactic

/-!
# Rotation of words

Rotations to the left by any distance, also beyond the width: they compose by addition of the
distances, respect the exclusive or, and a rotation by the width is none.
-/

namespace Rotation

/-! ### Bit vectors -/

section BitVectors

variable {w : ℕ} (x y : BitVec w) (r s : ℕ)

theorem getLsbD_rotateLeft {i : ℕ} (hi : i < w) :
    (x.rotateLeft r).getLsbD i = x.getLsbD ((i + (w - r % w)) % w) := by
  have hr : r % w < w := Nat.mod_lt _ (by omega)
  rw [BitVec.getLsbD_rotateLeft]
  by_cases h : i < r % w
  · have hpos : (i + (w - r % w)) % w = w - r % w + i := by
      rw [Nat.mod_eq_of_lt (by omega), Nat.add_comm]
    simp only [h, hpos, decide_true, cond_true]
  · have hpos : (i + (w - r % w)) % w = i - r % w := by
      rw [show i + (w - r % w) = i - r % w + w by omega, Nat.add_mod_right,
        Nat.mod_eq_of_lt (by omega)]
    simp only [h, hi, hpos, decide_false, decide_true, cond_false, Bool.true_and]

theorem rotateLeft_xor : (x ^^^ y).rotateLeft r = x.rotateLeft r ^^^ y.rotateLeft r := by
  apply BitVec.eq_of_getLsbD_eq
  intro i hi
  simp only [BitVec.getLsbD_xor, getLsbD_rotateLeft _ _ hi]

theorem rotateLeft_rotateLeft : (x.rotateLeft r).rotateLeft s = x.rotateLeft (r + s) := by
  apply BitVec.eq_of_getLsbD_eq
  intro i hi
  have hw : 0 < w := by omega
  have hr : r % w < w := Nat.mod_lt _ hw
  have hs : s % w < w := Nat.mod_lt _ hw
  have hrs : (r + s) % w < w := Nat.mod_lt _ hw
  rw [getLsbD_rotateLeft _ _ hi, getLsbD_rotateLeft _ _ (Nat.mod_lt _ hw),
    getLsbD_rotateLeft _ _ hi]
  congr 1
  -- Both are the position `i - r - s` modulo the width.
  have hleft : ((i + (w - s % w)) % w + (w - r % w)) % w + (r % w + s % w) ≡ i [MOD w] := by
    calc ((i + (w - s % w)) % w + (w - r % w)) % w + (r % w + s % w)
        ≡ i + (w - s % w) + (w - r % w) + (r % w + s % w) [MOD w] :=
          ((Nat.mod_modEq _ _).trans ((Nat.mod_modEq _ _).add_right _)).add_right _
      _ = i + w + w := by omega
      _ ≡ i [MOD w] := by simp [Nat.ModEq]
  have hright : (i + (w - (r + s) % w)) % w + (r % w + s % w) ≡ i [MOD w] := by
    calc (i + (w - (r + s) % w)) % w + (r % w + s % w)
        ≡ i + (w - (r + s) % w) + (r + s) % w [MOD w] :=
          (Nat.mod_modEq _ _).add (by simp [Nat.ModEq])
      _ = i + w := by omega
      _ ≡ i [MOD w] := by simp [Nat.ModEq]
  have heq := Nat.ModEq.add_right_cancel' _ (hleft.trans hright.symm)
  simpa [Nat.ModEq] using heq

theorem rotateLeft_of_dvd (h : w ∣ r) : x.rotateLeft r = x := by
  apply BitVec.eq_of_getLsbD_eq
  intro i hi
  rw [getLsbD_rotateLeft _ _ hi, Nat.mod_eq_zero_of_dvd h, Nat.sub_zero, Nat.add_mod_right,
    Nat.mod_eq_of_lt hi]

end BitVectors

/-! ### 64-bit words -/

def rotl (a : UInt64) (n : ℕ) : UInt64 := ⟨a.toBitVec.rotateLeft n⟩

variable (a b : UInt64) (m n : ℕ)

theorem rotl_xor : rotl (a ^^^ b) n = rotl a n ^^^ rotl b n :=
  UInt64.eq_of_toBitVec_eq (rotateLeft_xor _ _ _)

@[simp] theorem zero_rotl : rotl 0 n = 0 := by
  have h := rotl_xor 0 0 n
  rwa [UInt64.xor_self, UInt64.xor_self] at h

theorem rotl_rotl : rotl (rotl a m) n = rotl a (m + n) :=
  UInt64.eq_of_toBitVec_eq (rotateLeft_rotateLeft _ _ _)

theorem rotl_of_dvd (h : 64 ∣ n) : rotl a n = a :=
  UInt64.eq_of_toBitVec_eq (rotateLeft_of_dvd _ _ h)

/-- The rotation by what is missing to the width undoes a rotation. -/
theorem rotl_inverse : rotl (rotl a n) (64 - n % 64) = a := by
  rw [rotl_rotl]
  exact rotl_of_dvd _ _ (by omega)

theorem rotl_injective (n : ℕ) : Function.Injective (rotl · n) :=
  Function.LeftInverse.injective (g := (rotl · (64 - n % 64))) fun a => rotl_inverse a n

theorem toBitVec_shifts {offset : UInt64} (hpos : 0 < offset) (hlt : offset < 64) :
    (a <<< offset).toBitVec = a.toBitVec <<< offset.toNat ∧
      (a >>> (64 - offset)).toBitVec = a.toBitVec >>> (64 - offset.toNat) := by
  have hoffset : offset.toNat < 64 := UInt64.lt_iff_toNat_lt.mp hlt
  have hzero : 0 < offset.toNat := UInt64.lt_iff_toNat_lt.mp hpos
  have hleft : (offset.toBitVec % 64).toNat = offset.toNat := by
    simp [Nat.mod_eq_of_lt hoffset]
  have hright : ((64 - offset).toBitVec % 64).toNat = 64 - offset.toNat := by
    rw [BitVec.toNat_umod]
    simp
    omega
  rw [UInt64.toBitVec_shiftLeft, UInt64.toBitVec_shiftRight, BitVec.shiftLeft_eq',
    BitVec.ushiftRight_eq', hleft, hright]
  exact ⟨rfl, rfl⟩

theorem shift_or_shift {offset : UInt64} (hpos : 0 < offset) (hlt : offset < 64) :
    (a <<< offset) ||| (a >>> (64 - offset)) = rotl a offset.toNat := by
  obtain ⟨hleft, hright⟩ := toBitVec_shifts a hpos hlt
  have hoffset : offset.toNat < 64 := UInt64.lt_iff_toNat_lt.mp hlt
  apply UInt64.eq_of_toBitVec_eq
  rw [rotl, BitVec.rotateLeft_def, Nat.mod_eq_of_lt hoffset, UInt64.toBitVec_or, hleft, hright]

/-- The shifts have no bit in common, so `^` does the same. -/
theorem shift_xor_shift {offset : UInt64} (hpos : 0 < offset) (hlt : offset < 64) :
    (a <<< offset) ^^^ (a >>> (64 - offset)) = rotl a offset.toNat := by
  obtain ⟨hleft, hright⟩ := toBitVec_shifts a hpos hlt
  rw [← shift_or_shift a hpos hlt]
  apply UInt64.eq_of_toBitVec_eq
  rw [UInt64.toBitVec_xor, UInt64.toBitVec_or, hleft, hright]
  apply BitVec.eq_of_getLsbD_eq
  intro i hi
  by_cases h : i < offset.toNat
  · simp [h]
  · have houtside : a.toBitVec.getLsbD (64 - offset.toNat + i) = false :=
      BitVec.getLsbD_of_ge _ _ (by omega)
    simp only [BitVec.getLsbD_xor, BitVec.getLsbD_or, BitVec.getLsbD_ushiftRight, houtside,
      Bool.xor_false, Bool.or_false]

end Rotation
