import NexusPool.Mining.Prime

/-!
# The sieve

The loops of `eratos_thenes` compare products of 32 bits with the size of the table. Up to half the
range of that type no product wraps, so both loops end and stay in the table. What they leave
unmarked has no proper divisor.
-/

namespace NexusPool

namespace Prime

/-- The products that the inner loop compares with the bound are those of the numbers. -/
def ProductsFit (sieveSize nIndex : UInt32) : ℕ → UInt32 → Prop
  | 0, _ => True
  | fuel + 1, nComposite =>
    nComposite.toNat * nIndex.toNat < 2 ^ 32 ∧
      (nComposite * nIndex < sieveSize → ProductsFit sieveSize nIndex fuel (nComposite + 1))

/-! ### The inner loop -/

/-- Where the inner loop stands: the product before this one was below the bound. -/
structure InLoop (sieveSize nIndex nComposite : UInt32) : Prop where
  size_le : sieveSize.toNat ≤ 2 ^ 31
  two_le_index : 2 ≤ nIndex.toNat
  two_le : 2 ≤ nComposite.toNat
  before_lt : (nComposite.toNat - 1) * nIndex.toNat < sieveSize.toNat

namespace InLoop

variable {sieveSize nIndex nComposite : UInt32}

theorem first (hsize : sieveSize.toNat ≤ 2 ^ 31) (hlow : 2 ≤ nIndex.toNat)
    (hhigh : nIndex.toNat < sieveSize.toNat) : InLoop sieveSize nIndex 2 :=
  ⟨hsize, hlow, le_rfl, by simpa using hhigh⟩

theorem product_lt (h : InLoop sieveSize nIndex nComposite) :
    nComposite.toNat * nIndex.toNat < 2 ^ 32 := by
  obtain ⟨k, hk⟩ := Nat.exists_eq_add_of_le h.two_le
  have hbefore := h.before_lt
  have hsize := h.size_le
  have hindex : nIndex.toNat ≤ (nComposite.toNat - 1) * nIndex.toNat :=
    Nat.le_mul_of_pos_left _ (by omega)
  have hproduct : nComposite.toNat * nIndex.toNat =
      (nComposite.toNat - 1) * nIndex.toNat + nIndex.toNat := by
    rw [hk, Nat.add_comm 2 k, Nat.add_sub_assoc (by omega)]
    ring
  omega

theorem mul_lt_iff (h : InLoop sieveSize nIndex nComposite) :
    nComposite * nIndex < sieveSize ↔ nComposite.toNat * nIndex.toNat < sieveSize.toNat := by
  rw [UInt32.lt_iff_toNat_lt, UInt32.toNat_mul, Nat.mod_eq_of_lt h.product_lt]

theorem lt_size (h : InLoop sieveSize nIndex nComposite) :
    nComposite.toNat < sieveSize.toNat + 1 := by
  have hbefore := h.before_lt
  have hfactor : nComposite.toNat - 1 ≤ (nComposite.toNat - 1) * nIndex.toNat :=
    Nat.le_mul_of_pos_right _ (by have := h.two_le_index; omega)
  omega

theorem toNat_succ (h : InLoop sieveSize nIndex nComposite) :
    (nComposite + 1).toNat = nComposite.toNat + 1 := by
  have hlt := h.lt_size
  have hsize := h.size_le
  have hone : (1 : UInt32).toNat = 1 := rfl
  exact toNat_add_of_lt (by omega)

theorem next (h : InLoop sieveSize nIndex nComposite) (hlt : nComposite * nIndex < sieveSize) :
    InLoop sieveSize nIndex (nComposite + 1) where
  size_le := h.size_le
  two_le_index := h.two_le_index
  two_le := by
    rw [h.toNat_succ]
    exact h.two_le.trans (Nat.le_succ _)
  before_lt := by
    rw [h.toNat_succ, Nat.add_sub_cancel]
    exact h.mul_lt_iff.mp hlt

theorem productsFit (h : InLoop sieveSize nIndex nComposite) (fuel : ℕ) :
    ProductsFit sieveSize nIndex fuel nComposite := by
  induction fuel generalizing nComposite with
  | zero => trivial
  | succ fuel ih => exact ⟨h.product_lt, fun hlt => ih (h.next hlt)⟩

end InLoop

/-- The entry `j` of a table, which begins as `false`. -/
def isMarked (table : List Bool) (j : ℕ) : Prop := table.getD j false = true

theorem isMarked_set {table : List Bool} {i : ℕ} (hi : i < table.length) (j : ℕ) :
    isMarked (table.set i true) j ↔ isMarked table j ∨ j = i := by
  rw [isMarked, isMarked, List.getD_eq_getElem?_getD, List.getD_eq_getElem?_getD, List.getElem?_set]
  by_cases hj : i = j
  · subst hj
    simp [hi]
  · simp [hj, Ne.symm hj]

theorem not_isMarked_replicate (n j : ℕ) : ¬ isMarked (List.replicate n false) j := by
  rw [isMarked, List.getD_eq_getElem?_getD, List.getElem?_replicate]
  split_ifs <;> exact Bool.false_ne_true

theorem markComposites_spec {sieveSize nIndex nComposite : UInt32} {fuel : ℕ} {table : List Bool}
    (h : InLoop sieveSize nIndex nComposite) (hfuel : sieveSize.toNat ≤ nComposite.toNat + fuel)
    (htable : table.length = sieveSize.toNat) :
    ∃ table', markComposites sieveSize nIndex fuel nComposite table = some table' ∧
      table'.length = sieveSize.toNat ∧ ∀ j < sieveSize.toNat, isMarked table' j ↔
        isMarked table j ∨
        ∃ m, nComposite.toNat ≤ m ∧ j = m * nIndex.toNat := by
  induction fuel generalizing nComposite table with
  | zero =>
    -- the factor is at most half of the bound
    have hbefore := h.before_lt
    have hhalf : (nComposite.toNat - 1) * 2 ≤ (nComposite.toNat - 1) * nIndex.toNat :=
      Nat.mul_le_mul_left _ h.two_le_index
    have htwo := h.two_le
    omega
  | succ fuel ih =>
    have hproduct : (nComposite * nIndex).toNat = nComposite.toNat * nIndex.toNat := by
      rw [UInt32.toNat_mul, Nat.mod_eq_of_lt h.product_lt]
    rw [markComposites]
    by_cases hlt : nComposite * nIndex < sieveSize
    · have hinside : (nComposite * nIndex).toNat < table.length := by
        rw [htable]
        exact UInt32.lt_iff_toNat_lt.mp hlt
      have hnext := h.toNat_succ
      have hset : (table.set (nComposite * nIndex).toNat true).length = sieveSize.toNat := by
        rw [List.length_set, htable]
      obtain ⟨table', hloop, hlength, hmarks⟩ := ih (h.next hlt) (by omega) hset
      refine ⟨table', by rw [if_pos hlt, if_pos hinside, hloop], hlength, fun j hj => ?_⟩
      rw [hmarks j hj, isMarked_set hinside, or_assoc, hproduct, hnext]
      apply or_congr_right
      constructor
      · rintro (hj | ⟨m, hm, hj⟩)
        · exact ⟨_, le_rfl, hj⟩
        · exact ⟨m, by omega, hj⟩
      · rintro ⟨m, hm, hj⟩
        rcases hm.eq_or_lt with rfl | hm
        · exact .inl hj
        · exact .inr ⟨m, hm, hj⟩
    · refine ⟨table, if_neg hlt, htable, fun j hj => ?_⟩
      have hend := mt h.mul_lt_iff.mpr hlt
      have hnone : ¬ ∃ m, nComposite.toNat ≤ m ∧ j = m * nIndex.toNat := by
        rintro ⟨m, hm, rfl⟩
        exact hend ((Nat.mul_le_mul_right _ hm).trans_lt hj)
      simp [hnone]

/-! ### The outer loop -/

/-- A proper multiple of one of the numbers from `nIndex` on. -/
def IsMultiple (nIndex j : ℕ) : Prop := ∃ i m, nIndex ≤ i ∧ 2 ≤ m ∧ j = m * i

theorem isMultiple_iff {nIndex j : ℕ} :
    IsMultiple nIndex j ↔ (∃ m, 2 ≤ m ∧ j = m * nIndex) ∨ IsMultiple (nIndex + 1) j := by
  constructor
  · rintro ⟨i, m, hi, hm, hj⟩
    rcases hi.eq_or_lt with rfl | hi
    · exact .inl ⟨m, hm, hj⟩
    · exact .inr ⟨i, m, hi, hm, hj⟩
  · rintro (⟨m, hm, hj⟩ | ⟨i, m, hi, hm, hj⟩)
    · exact ⟨nIndex, m, le_rfl, hm, hj⟩
    · exact ⟨i, m, by omega, hm, hj⟩

/-- The proper multiples of the numbers from two on are all that is not prime. -/
theorem isMultiple_two_iff {j : ℕ} (hj : 2 ≤ j) : IsMultiple 2 j ↔ ¬ j.Prime := by
  rw [Nat.not_prime_iff_exists_mul_eq hj]
  constructor
  · rintro ⟨i, m, hi, hm, rfl⟩
    have hleft : m < m * i := lt_mul_of_one_lt_right (by omega) (by omega)
    have hright : i < m * i := lt_mul_of_one_lt_left (by omega) (by omega)
    exact ⟨m, i, hleft, hright, rfl⟩
  · rintro ⟨m, i, hleft, hright, rfl⟩
    refine ⟨i, m, ?_, ?_, rfl⟩
    · by_contra hi
      have hle := Nat.mul_le_mul_left m (by omega : i ≤ 1)
      omega
    · by_contra hm
      have hle := Nat.mul_le_mul_right i (by omega : m ≤ 1)
      omega

theorem markTable_spec {sieveSize nIndex : UInt32} {inner fuel : ℕ} {table : List Bool}
    (hsize : sieveSize.toNat ≤ 2 ^ 31) (hindex : 2 ≤ nIndex.toNat)
    (hinner : sieveSize.toNat ≤ 2 + inner)
    (hfuel : sieveSize.toNat < nIndex.toNat + fuel) (hpos : 0 < fuel)
    (htable : table.length = sieveSize.toNat) :
    ∃ table', markTable sieveSize inner fuel nIndex table = some table' ∧
      table'.length = sieveSize.toNat ∧ ∀ j < sieveSize.toNat, isMarked table' j ↔
        isMarked table j ∨ IsMultiple nIndex.toNat j := by
  induction fuel generalizing nIndex table with
  | zero => omega
  | succ fuel ih =>
    rw [markTable]
    by_cases hlt : nIndex < sieveSize
    · have hlt' := UInt32.lt_iff_toNat_lt.mp hlt
      have hone : (1 : UInt32).toNat = 1 := rfl
      have hnext : (nIndex + 1).toNat = nIndex.toNat + 1 := toNat_add_of_lt (by omega)
      obtain ⟨marked, hmarked, hlength, hmarks⟩ :=
        markComposites_spec (InLoop.first hsize hindex hlt') hinner htable
      have hlow : 2 ≤ (nIndex + 1).toNat := by omega
      obtain ⟨table', hloop, hlength', hmarks'⟩ := ih hlow (by omega) (by omega) hlength
      refine ⟨table', ?_, hlength', fun j hj => ?_⟩
      · rw [if_pos hlt, hmarked, Option.bind_some, hloop]
      rw [hmarks' j hj, hmarks j hj, hnext, @isMultiple_iff nIndex.toNat j, or_assoc]
      rfl
    · refine ⟨table, if_neg hlt, htable, fun j hj => ?_⟩
      have hend := mt UInt32.lt_iff_toNat_lt.mpr hlt
      have hnone : ¬ IsMultiple nIndex.toNat j := by
        rintro ⟨i, m, hi, hm, rfl⟩
        have hle : i ≤ m * i := Nat.le_mul_of_pos_left i (by omega)
        omega
      simp [hnone]

/-! ### The result -/

/-- The unmarked indices from two on, in order. -/
theorem toNat_unmarked {table : List Bool} (hlength : table.length ≤ 2 ^ 31) :
    (((table.zipIdx.drop 2).filter (!·.1)).map (·.2.toUInt32)).map UInt32.toNat =
      (List.range' 2 (table.length - 2)).filter fun j => !table.getD j false := by
  have hzip : table.zipIdx = (List.range table.length).map fun j => (table.getD j false, j) := by
    apply List.ext_getElem?
    intro j
    by_cases hj : j < table.length
    · simp [hj, List.getD_eq_getElem?_getD]
    · simp [hj]
  rw [hzip, ← List.map_drop, List.range_eq_range', List.drop_range', List.filter_map, List.map_map,
    List.map_map]
  rw [List.map_congr_left (g := id)]
  · simp [Function.comp_def]
  · intro j hj
    have hlt := List.mem_range'_1.mp (List.mem_filter.mp hj).1
    exact UInt32.toNat_ofNat_of_lt' (by simp [UInt32.size]; omega)

theorem exists_eratosThenes {sieveSize : UInt32} {fuel : ℕ} (hsize : sieveSize.toNat ≤ 2 ^ 31)
    (hfuel : sieveSize.toNat ≤ fuel) (hpos : 0 < fuel) :
    ∃ primes, eratosThenes fuel sieveSize = some primes ∧
      primes.map UInt32.toNat = (List.range sieveSize.toNat).filter Nat.Prime := by
  have htwo : (2 : UInt32).toNat = 2 := rfl
  obtain ⟨table, hloop, hlength, hmarks⟩ := @markTable_spec sieveSize 2 fuel fuel
    (List.replicate sieveSize.toNat false) hsize htwo.ge (by omega)
      (by omega) hpos List.length_replicate
  refine ⟨_, by rw [eratosThenes, hloop, Option.map_some], ?_⟩
  have hunmarked : ∀ j ∈ List.range' 2 (sieveSize.toNat - 2),
      (!table.getD j false) = decide j.Prime := by
    intro j hj
    obtain ⟨hlow, hhigh⟩ := List.mem_range'_1.mp hj
    have hmark := hmarks j (by omega)
    rw [htwo, isMultiple_two_iff hlow, or_iff_right (not_isMarked_replicate _ j), isMarked] at hmark
    rw [Bool.eq_iff_iff, Bool.not_eq_true', decide_eq_true_eq, ← Bool.not_eq_true, hmark, not_not]
  have hsmall : ((List.range sieveSize.toNat).take 2).filter Nat.Prime = [] := by
    rw [List.take_range, List.filter_eq_nil_iff]
    intro j hj hprime
    have hlt := List.mem_range.mp hj
    have htwo := (of_decide_eq_true hprime).two_le
    omega
  rw [toNat_unmarked (by omega), hlength, List.filter_congr hunmarked]
  conv_rhs => rw [← List.take_append_drop 2 (List.range sieveSize.toNat),
    List.filter_append, hsmall, List.nil_append, List.range_eq_range', List.drop_range']

/-- Over the primes below a bound the divisor test is one for a prime factor. -/
theorem gmpDivisor_iff {g : Globals} {bound : ℕ}
    (h : g.primeSieve.map UInt32.toNat = (List.range bound).filter Nat.Prime) (n : ℕ) :
    gmpDivisor g n ↔ ∀ p < bound, p.Prime → ¬ p ∣ n := by
  have hmem : ∀ p, p ∈ g.primeSieve.map UInt32.toNat ↔ p < bound ∧ p.Prime := by
    intro p
    rw [h, List.mem_filter, List.mem_range, decide_eq_true_eq]
  simp only [gmpDivisor, List.all_eq_true, decide_eq_true_eq]
  constructor
  · intro hall p hp hprime hdvd
    obtain ⟨x, hx, rfl⟩ := List.mem_map.mp ((hmem p).mpr ⟨hp, hprime⟩)
    exact hall x hx (Nat.mod_eq_zero_of_dvd hdvd)
  · intro hall x hx hmod
    obtain ⟨hlt, hprime⟩ := (hmem x.toNat).mp (List.mem_map_of_mem hx)
    exact hall x.toNat hlt hprime (Nat.dvd_of_mod_eq_zero hmod)

theorem gmpDivisor_eq_false_iff {g : Globals} {bound : ℕ}
    (h : g.primeSieve.map UInt32.toNat = (List.range bound).filter Nat.Prime) (n : ℕ) :
    gmpDivisor g n = false ↔ ∃ p < bound, p.Prime ∧ p ∣ n := by
  rw [← Bool.not_eq_true, gmpDivisor_iff h]
  simp only [not_forall, not_not, exists_prop]

/-- For every size up to half the range of the type no product wraps, and with fuel for each index
the sieve returns the primes below its size in order. The divisor test over them is one for a prime
factor. -/
theorem eratosThenes_primes (sieveSize : UInt32) (hsize : sieveSize.toNat ≤ 2 ^ 31) :
    (∀ nIndex, 2 ≤ nIndex → nIndex < sieveSize → ∀ fuel, ProductsFit sieveSize nIndex fuel 2) ∧
      ∃ primes, (∀ fuel > sieveSize.toNat, eratosThenes fuel sieveSize = some primes) ∧
        primes.map UInt32.toNat = (List.range sieveSize.toNat).filter Nat.Prime ∧
        ∀ g n, g.primeSieve = primes →
          (gmpDivisor g n = false ↔ ∃ p < sieveSize.toNat, p.Prime ∧ p ∣ n) := by
  obtain ⟨primes, -, hprimes⟩ := exists_eratosThenes hsize (Nat.le_succ _) (Nat.succ_pos _)
  refine ⟨fun nIndex hlow hhigh => (InLoop.first hsize ?_ ?_).productsFit, primes,
    fun fuel hfuel => ?_, hprimes, fun g n hg => gmpDivisor_eq_false_iff (hg ▸ hprimes) n⟩
  · exact UInt32.le_iff_toNat_le.mp hlow
  · exact UInt32.lt_iff_toNat_lt.mp hhigh
  · obtain ⟨primes', hsieve, hprimes'⟩ := exists_eratosThenes hsize hfuel.le (by omega)
    rw [hsieve, Option.some.injEq]
    exact List.map_injective_iff.mpr (fun _ _ => UInt32.toNat_inj.mp) (hprimes'.trans hprimes.symm)

/-- There are four primes below ten. -/
theorem eratosThenes_ten : ∃ primes, (∀ fuel > 10, eratosThenes fuel 10 = some primes) ∧
    primes.map UInt32.toNat = [2, 3, 5, 7] := by
  obtain ⟨-, primes, hsieve, hprimes, -⟩ := eratosThenes_primes 10 (by decide)
  have hten : (10 : UInt32).toNat = 10 := rfl
  have hlist : (List.range 10).filter Nat.Prime = [2, 3, 5, 7] := by decide +kernel
  rw [hten] at hsieve hprimes
  exact ⟨primes, hsieve, hprimes.trans hlist⟩

/-! ### The tests once the primes are initialised -/

theorem exists_eratosThenes_eighty : ∃ primes, eratosThenes 80 80 = some primes ∧
    primes.map UInt32.toNat = (List.range 80).filter Nat.Prime :=
  exists_eratosThenes (by decide) le_rfl (by decide)

theorem exists_initializePrimes (g : Globals) : ∃ g', initializePrimes 80 g = some g' := by
  obtain ⟨primes, hsieve, -⟩ := exists_eratosThenes_eighty
  exact ⟨_, by rw [initializePrimes, hsieve, Option.map_some]⟩

theorem gmpDivisor_of_initializePrimes {g g' : Globals} (h : initializePrimes 80 g = some g')
    (n : ℕ) : gmpDivisor g' n ↔ ∀ p < 80, p.Prime → ¬ p ∣ n := by
  obtain ⟨primes, hsieve, hprimes⟩ := exists_eratosThenes_eighty
  rw [initializePrimes, hsieve, Option.map_some, Option.some.injEq] at h
  cases h
  exact gmpDivisor_iff hprimes n

theorem zTwo_of_initializePrimes {g g' : Globals} {fuel : ℕ}
    (h : initializePrimes fuel g = some g') :
    g'.zTwo = 2 := by
  obtain ⟨sieve, -, rfl⟩ := Option.map_eq_some_iff.mp h
  rfl

theorem gmpPrimeTest_of_initializePrimes {g g' : Globals} (h : initializePrimes 80 g = some g')
    {n : ℕ} (hn : 1 < n) : gmpPrimeTest g' n = some true ↔ Passes n := by
  have hdivisor := gmpDivisor_of_initializePrimes h n
  have hn : n ≠ 0 := by omega
  by_cases hfree : gmpDivisor g' n
  · rw [gmpPrimeTest, if_pos hfree, gmpFermat, if_neg hn, zTwo_of_initializePrimes h]
    simpa [Passes] using fun _ => hdivisor.mp hfree
  · rw [gmpPrimeTest, if_neg hfree]
    have hfail : ¬ Passes n := fun h => hfree (hdivisor.mpr h.1)
    simp [hfail]

/-- A number with a factor in the sieve is divided out. -/
theorem gmpPrimeTest_of_dvd {g g' : Globals} (h : initializePrimes 80 g = some g') {p n : ℕ}
    (hp : p < 80) (hprime : p.Prime) (hdvd : p ∣ n) : gmpPrimeTest g' n = some false := by
  have hdivisor := gmpDivisor_of_initializePrimes h n
  rw [gmpPrimeTest, if_neg fun hfree => hdivisor.mp hfree p hp hprime hdvd]

/-- Zero never reaches the modular power, as two divides it. -/
theorem gmpPrimeTest_ne_none {g g' : Globals} (h : initializePrimes 80 g = some g') (n : ℕ) :
    gmpPrimeTest g' n ≠ none := by
  rcases Nat.eq_zero_or_pos n with rfl | hn
  · rw [gmpPrimeTest_of_dvd h (by norm_num) Nat.prime_two (dvd_zero 2)]
    exact Option.some_ne_none _
  · by_cases hfree : gmpDivisor g' n
    · rw [gmpPrimeTest, if_pos hfree, gmpFermat, if_neg hn.ne']
      exact Option.some_ne_none _
    · rw [gmpPrimeTest, if_neg hfree]
      exact Option.some_ne_none _

end Prime

end NexusPool
