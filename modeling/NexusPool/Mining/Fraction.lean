import NexusPool.Mining.Cluster

/-!
# The fraction of a cluster

`get_fractional_difficulty` divides by the number past the gap of a cluster. That number is taken
modulo `2 ^ 1024`, so it could be zero, but the loop of `gmp_verification` counts its offset in
steps of two, and an odd number stays odd.
-/

namespace NexusPool

namespace Prime

variable {g g' : Globals}

/-! ### The number past the gap -/

/-- The offset stays even, also when it overflows. -/
theorem extendCluster_parity {fuel : ℕ} {c c' : Cluster} (h : extendCluster g fuel c = some c') :
    c'.nOffset.toNat % 2 = c.nOffset.toNat % 2 := by
  induction fuel generalizing c with
  | zero => cases h
  | succ fuel ih =>
    have htwo : (2 : UInt32).toNat = 2 := rfl
    have hstep : (c.nOffset + 2).toNat % 2 = c.nOffset.toNat % 2 := by
      rw [UInt32.toNat_add]
      omega
    rw [extendCluster] at h
    split_ifs at h
    · cases htest : gmpPrimeTest g (c.zPrime + 2) with
      | none =>
        rw [htest] at h
        cases h
      | some passes =>
        rw [htest] at h
        cases passes with
        | true => exact (ih h).trans hstep
        | false => exact (ih h).trans hstep
    · cases h
      rfl

theorem odd_composite {fuel : ℕ} {prime : Uint1024} {c : Cluster} (hodd : prime.toNat % 2 = 1)
    (hc : extendCluster g fuel ⟨prime.toNat, 1, 2, 0⟩ = some c) :
    (c.composite prime).toNat % 2 = 1 := by
  have hparity := extendCluster_parity hc
  change _ = 0 % 2 at hparity
  rw [Cluster.toNat_composite]
  omega

/-! ### The quotient -/

/-- What `mpz_tdiv_q` computes: the difference has a sign, and the quotient is cut off towards
zero. -/
def fractionalQuotient (composite remainder : ℕ) : ℤ :=
  (((composite : ℤ) - remainder) * 2 ^ 24).tdiv composite

section Quotient

variable {composite remainder : ℕ}

/-- The difference is not negative, so this is a quotient of natural numbers. -/
theorem fractionalQuotient_eq (hle : remainder ≤ composite) :
    fractionalQuotient composite remainder =
      ((composite - remainder) * 2 ^ 24 / composite : ℕ) := by
  have hsub : (composite : ℤ) - remainder = (composite - remainder : ℕ) := by omega
  rw [fractionalQuotient, hsub]
  norm_cast

theorem fractionalQuotient_eq_floor (hle : remainder ≤ composite) :
    fractionalQuotient composite remainder =
      ⌊((composite : ℚ) - remainder) * 2 ^ 24 / composite⌋ := by
  have hfloor := Rat.floor_natCast_div_natCast ((composite - remainder) * 2 ^ 24) composite
  rw [fractionalQuotient_eq hle, Int.natCast_ediv, ← hfloor]
  push_cast [hle]
  rfl

theorem fractionalQuotient_nonneg (hle : remainder ≤ composite) :
    0 ≤ fractionalQuotient composite remainder := by
  rw [fractionalQuotient_eq hle]
  exact Int.natCast_nonneg _

theorem fractionalQuotient_le (hle : remainder ≤ composite) :
    fractionalQuotient composite remainder ≤ 2 ^ 24 := by
  have hnumerator : (composite - remainder) * 2 ^ 24 ≤ composite * 2 ^ 24 :=
    Nat.mul_le_mul_right _ (Nat.sub_le ..)
  rw [fractionalQuotient_eq hle]
  exact_mod_cast Nat.div_le_of_le_mul hnumerator

end Quotient

/-- A composite that is not zero has a fractional difficulty: the quotient, which fits 32 bits. -/
theorem getFractionalDifficulty_eq {composite : Uint1024} (hne : composite.toNat ≠ 0) :
    ∃ remainder diff, fermatTest composite.toNat = some remainder ∧ remainder < composite.toNat ∧
      getFractionalDifficulty composite = some diff ∧
      (diff.toNat : ℤ) = fractionalQuotient composite.toNat remainder := by
  have hlt : 2 ^ (composite.toNat - 1) % composite.toNat < composite.toNat :=
    Nat.mod_lt _ (Nat.pos_of_ne_zero hne)
  have htest : fermatTest composite.toNat = some (2 ^ (composite.toNat - 1) % composite.toNat) :=
    if_neg hne
  have hbound := fractionalQuotient_le hlt.le
  refine ⟨_, _, htest, hlt, by rw [getFractionalDifficulty, htest, Option.map_some], ?_⟩
  rw [fractionalQuotient_eq hlt.le] at hbound ⊢
  have hfits : (composite.toNat - 2 ^ (composite.toNat - 1) % composite.toNat) * 2 ^ 24 /
      composite.toNat < 2 ^ 32 := by omega
  exact congrArg Nat.cast (UInt32.toNat_ofNat_of_lt' hfits)

/-- Once the primes are initialised, no measurement divides by zero, and the quotient of every
composite is the fraction it stands for. -/
theorem fractionalDifficulty_defined (h : initializePrimes 80 g = some g') :
    (∀ prime : Uint1024, gmpPrimeTest g' prime.toNat = some true →
      (∃ c, extendCluster g' 1161 ⟨prime.toNat, 1, 2, 0⟩ = some c) ∧
      ∀ fuel c, extendCluster g' fuel ⟨prime.toNat, 1, 2, 0⟩ = some c →
        (c.composite prime).toNat = (c.nOffset.toNat + prime.toNat + 2) % 2 ^ 1024 ∧
        (c.composite prime).toNat ≠ 0 ∧ fermatTest (c.composite prime).toNat ≠ none ∧
        getFractionalDifficulty (c.composite prime) ≠ none) ∧
    ∀ composite : Uint1024, composite.toNat ≠ 0 → ∃ remainder diff,
      fermatTest composite.toNat = some remainder ∧ remainder < composite.toNat ∧
      remainder = 2 ^ (composite.toNat - 1) % composite.toNat ∧
      fractionalQuotient composite.toNat remainder =
        ⌊((composite.toNat : ℚ) - remainder) * 2 ^ 24 / composite.toNat⌋ ∧
      0 ≤ fractionalQuotient composite.toNat remainder ∧
      fractionalQuotient composite.toNat remainder ≤ 2 ^ 24 ∧
      getFractionalDifficulty composite = some diff ∧
      (diff.toNat : ℤ) = fractionalQuotient composite.toNat remainder := by
  constructor
  · intro prime hpasses
    have hodd := odd_of_gmpPrimeTest h hpasses
    refine ⟨exists_extendCluster_of_odd h hodd, fun fuel c hc => ?_⟩
    have hcomposite := odd_composite hodd hc
    have hne : (c.composite prime).toNat ≠ 0 := by omega
    obtain ⟨remainder, diff, htest, -, hdiff, -⟩ := getFractionalDifficulty_eq hne
    exact ⟨c.toNat_composite prime, hne, by simp [htest], by simp [hdiff]⟩
  · intro composite hne
    obtain ⟨remainder, diff, htest, hlt, hdiff, hquotient⟩ := getFractionalDifficulty_eq hne
    have hremainder : remainder = 2 ^ (composite.toNat - 1) % composite.toNat := by
      rw [fermatTest, if_neg hne, Option.some.injEq] at htest
      exact htest.symm
    exact ⟨remainder, diff, htest, hlt, hremainder, fractionalQuotient_eq_floor hlt.le,
      fractionalQuotient_nonneg hlt.le, fractionalQuotient_le hlt.le, hdiff, hquotient⟩

/-- The chain of 83, and the composite one, whose remainder is zero. -/
theorem eightyThree_fraction : ∃ g', initializePrimes 80 .static = some g' ∧
    (∃ c, extendCluster g' 1161 ⟨83, 1, 2, 0⟩ = some c ∧
      getFractionalDifficulty (c.composite (.ofUInt64 30 83)) ≠ none) ∧
    ∃ remainder diff, fermatTest 1 = some remainder ∧
      getFractionalDifficulty (.ofUInt64 30 1) = some diff ∧
      (diff.toNat : ℤ) = fractionalQuotient 1 remainder := by
  obtain ⟨g', h⟩ := exists_initializePrimes .static
  obtain ⟨hmeasured, hquotient⟩ := fractionalDifficulty_defined h
  have hvalue : (BaseUint.ofUInt64 30 83).toNat = 83 := BaseUint.toNat_ofUInt64 30 83
  have hone : (BaseUint.ofUInt64 30 1).toNat = 1 := BaseUint.toNat_ofUInt64 30 1
  have hpasses : gmpPrimeTest g' (BaseUint.ofUInt64 30 83).toNat = some true := by
    rw [hvalue]
    exact (gmpPrimeTest_of_initializePrimes h (by norm_num)).mpr passes_eightyThree
  obtain ⟨⟨c, hc⟩, hall⟩ := hmeasured _ hpasses
  obtain ⟨-, -, -, hdiff⟩ := hall _ c hc
  obtain ⟨remainder, diff, htest, -, -, -, -, -, hdiff₁, heq⟩ :=
    hquotient (.ofUInt64 30 1) (by omega)
  rw [hvalue] at hc
  rw [hone] at htest heq
  exact ⟨g', h, ⟨c, hc, hdiff⟩, remainder, diff, htest, hdiff₁, heq⟩

end Prime

end NexusPool
