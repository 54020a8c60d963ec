import NexusPool.Hash.BaseUint
import Mathlib.Tactic.NormNum.Prime

/-!
# Prime clusters

The tests of `prime.hpp` on GMP integers, which are taken as exact. `gmp_divisor` and
`gmp_fermat` read two global variables; `InitializePrimes` gives these the values the tests
are written for.
-/

namespace NexusPool

namespace Prime

/-- The global variables `zTwo` and `PRIME_SIEVE`. -/
structure Globals where
  zTwo : ℕ
  primeSieve : List UInt32

/-- Before any code runs: a static `mpz_t` reads as zero and the vector is empty. -/
def Globals.static : Globals := ⟨0, []⟩

theorem toNat_add_of_lt {x y : UInt32} (h : x.toNat + y.toNat < 2 ^ 32) :
    (x + y).toNat = x.toNat + y.toNat := by
  rw [UInt32.toNat_add, Nat.mod_eq_of_lt h]

/-! ### The divisor sieve -/

/-- The inner loop, which marks the multiples of `nIndex`. `none` when the fuel does not
suffice or `TABLE` is indexed past its end. -/
def markComposites (sieveSize nIndex : UInt32) : ℕ → UInt32 → List Bool → Option (List Bool)
  | 0, _, _ => none
  | fuel + 1, nComposite, table =>
    if nComposite * nIndex < sieveSize then
      if (nComposite * nIndex).toNat < table.length then
        markComposites sieveSize nIndex fuel (nComposite + 1)
          (table.set (nComposite * nIndex).toNat true)
      else none
    else some table

def markTable (sieveSize : UInt32) (inner : ℕ) : ℕ → UInt32 → List Bool → Option (List Bool)
  | 0, _, _ => none
  | fuel + 1, nIndex, table =>
    if nIndex < sieveSize then
      (markComposites sieveSize nIndex inner 2 table).bind
        (markTable sieveSize inner fuel (nIndex + 1))
    else some table

/-- `eratos_thenes`: the indices from 2 on that no multiple has marked. -/
def eratosThenes (fuel : ℕ) (sieveSize : UInt32) : Option (List UInt32) :=
  (markTable sieveSize fuel fuel 2 (List.replicate sieveSize.toNat false)).map fun table =>
    ((table.zipIdx.drop 2).filter (!·.1)).map (·.2.toUInt32)

/-- `InitializePrimes`, which nothing in the repository calls. -/
def initializePrimes (fuel : ℕ) (g : Globals) : Option Globals :=
  (eratosThenes fuel 80).map fun sieve => { g with zTwo := 2, primeSieve := sieve }

/-! ### The tests -/

def gmpDivisor (g : Globals) (prime : ℕ) : Bool := g.primeSieve.all fun p => prime % p.toNat ≠ 0

/-- `zTwo ^ (prime - 1) = 1 (mod prime)`. A zero modulus is a division by zero in GMP. -/
def gmpFermat (g : Globals) (prime : ℕ) : Option Bool :=
  if prime = 0 then none else some (g.zTwo ^ (prime - 1) % prime = 1)

def gmpPrimeTest (g : Globals) (prime : ℕ) : Option Bool :=
  if gmpDivisor g prime then gmpFermat g prime else some false

/-! ### The difficulty of a share -/

/-- `set_bits`, the encoding of a difficulty in `nBits`. -/
def setBits (diff : ℚ) : UInt32 := (truncate (10000000 * diff)).toUInt32

def getDifficulty (bits : UInt32) : ℚ := bits.toNat / 10000000

/-- `2 ^ (n - 1) mod n`, with a base of its own. -/
def fermatTest (n : ℕ) : Option ℕ := if n = 0 then none else some (2 ^ (n - 1) % n)

def getFractionalDifficulty (composite : Uint1024) : Option UInt32 :=
  (fermatTest composite.toNat).map fun r =>
    ((composite.toNat - r) * 2 ^ 24 / composite.toNat).toUInt32

structure Cluster where
  zPrime : ℕ
  nClusterSize : UInt32
  nPrimeGap : UInt32
  nOffset : UInt32

/-- The number past the gap, which `get_fractional_difficulty` is given. -/
def Cluster.composite (prime : Uint1024) (c : Cluster) : Uint1024 :=
  prime + .ofUInt64 30 c.nOffset.toUInt64 + .ofUInt64 30 2

/-- Steps of two until no prime follows within the gap. -/
def extendCluster (g : Globals) : ℕ → Cluster → Option Cluster
  | 0, _ => none
  | fuel + 1, c =>
    if c.nPrimeGap ≤ 12 then
      match gmpPrimeTest g (c.zPrime + 2) with
      | none => none
      | some true =>
        extendCluster g fuel ⟨c.zPrime + 2, c.nClusterSize + 1, 2, c.nOffset + 2⟩
      | some false =>
        extendCluster g fuel ⟨c.zPrime + 2, c.nClusterSize, c.nPrimeGap + 2, c.nOffset + 2⟩
    else some c

/-- The remainder `1000000 / diff`, or zero outside the bounds. A zero `diff` gives an
infinite quotient, which is outside too. -/
def fractionalRemainder (diff : UInt32) : ℚ :=
  if diff = 0 ∨ 1000000 / (diff.toNat : ℚ) > 1 then 0 else 1000000 / diff.toNat

/-- `gmp_verification`: the number of primes in the cluster plus a fraction. -/
def gmpVerification (g : Globals) (fuel : ℕ) (prime : Uint1024) : Option ℚ := do
  if !(← gmpPrimeTest g prime.toNat) then
    return 0
  let c ← extendCluster g fuel ⟨prime.toNat, 1, 2, 0⟩
  let diff ← getFractionalDifficulty (c.composite prime)
  return c.nClusterSize.toNat + fractionalRemainder diff

/-! ### What the tests are for -/

def Passes (n : ℕ) : Prop := (∀ p < 80, p.Prime → ¬ p ∣ n) ∧ 2 ^ (n - 1) % n = 1

/-- With the globals as they start out, no number passes: powers of zero are zero. -/
theorem gmpPrimeTest_static {n : ℕ} (hn : 1 < n) : gmpPrimeTest .static n = some false := by
  have hpow : (0 : ℕ) ^ (n - 1) % n = 0 := by
    rw [zero_pow (by omega), Nat.zero_mod]
  simp [gmpPrimeTest, gmpDivisor, gmpFermat, Globals.static, hpow]
  omega

theorem gmpVerification_static (fuel : ℕ) {prime : Uint1024} (h : 1 < prime.toNat) :
    gmpVerification .static fuel prime = some 0 := by
  simp [gmpVerification, gmpPrimeTest_static h]

end Prime

end NexusPool
