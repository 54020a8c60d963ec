import NexusPool.Mining.Sieve

/-!
# The length of a prime cluster

The loop of `gmp_verification` starts its gap anew at every number that passes, so it ends only
because six odd numbers in a row that have a factor in the sieve always lie ahead. What it counts is
the chain of numbers that pass, each at most twelve above the one before.
-/

namespace NexusPool

namespace Prime

variable {g : Globals}

/-- The next number of the same parity that passes, if it is at most twelve above. -/
structure NextMember (g : Globals) (q q' : ℕ) : Prop where
  above : q < q'
  near : q' ≤ q + 12
  parity : q' % 2 = q % 2
  passes : gmpPrimeTest g q' = some true
  least : ∀ n, q < n → n < q' → n % 2 = q % 2 → gmpPrimeTest g n ≠ some true

def LastMember (g : Globals) (q : ℕ) : Prop :=
  ∀ n, q < n → n ≤ q + 12 → n % 2 = q % 2 → gmpPrimeTest g n ≠ some true

/-- The chain that begins with `p` and ends with `qm`. -/
inductive IsCluster (g : Globals) : ℕ → List ℕ → ℕ → Prop
  | last {q : ℕ} (h : LastMember g q) : IsCluster g q [q] q
  | next {q q' qm : ℕ} {members : List ℕ} (h : NextMember g q q')
      (rest : IsCluster g q' members qm) :
      IsCluster g q (q :: members) qm

theorem NextMember.not_last {q q' : ℕ} (h : NextMember g q q') : ¬ LastMember g q := fun hlast =>
  hlast q' h.above h.near h.parity h.passes

theorem NextMember.unique {q q' q'' : ℕ} (h : NextMember g q q') (h' : NextMember g q q'') :
    q' = q'' := by
  rcases Nat.lt_trichotomy q' q'' with hlt | heq | hlt
  · exact absurd h.passes (h'.least q' h.above hlt h.parity)
  · exact heq
  · exact absurd h'.passes (h.least q'' h'.above hlt h'.parity)

/-- There is only one such chain. -/
theorem IsCluster.unique {q qm qm' : ℕ} {members members' : List ℕ} (h : IsCluster g q members qm)
    (h' : IsCluster g q members' qm') : members' = members ∧ qm' = qm := by
  induction h generalizing members' qm' with
  | last h =>
    cases h' with
    | last => exact ⟨rfl, rfl⟩
    | next hnext => exact absurd h hnext.not_last
  | next h rest ih =>
    cases h' with
    | last hlast => exact absurd hlast h.not_last
    | next hnext rest' =>
      obtain rfl := h.unique hnext
      obtain ⟨rfl, rfl⟩ := ih rest'
      exact ⟨rfl, rfl⟩

theorem IsCluster.parity {q qm : ℕ} {members : List ℕ} (h : IsCluster g q members qm) :
    qm % 2 = q % 2 := by
  induction h with
  | last => rfl
  | next h rest ih => exact ih.trans h.parity

/-! ### What the loop counts -/

/-- After `k` numbers above `q` that did not pass, the loop adds the members of the chain of `q`,
and comes to its end twelve above the last one. -/
theorem extendCluster_spec {fuel q k : ℕ} {c c' : Cluster} (hzPrime : c.zPrime = q + 2 * k)
    (hgap : c.nPrimeGap.toNat = 2 + 2 * k) (hk : k ≤ 6)
    (hfailed : ∀ n, q < n → n ≤ q + 2 * k → n % 2 = q % 2 → gmpPrimeTest g n ≠ some true)
    (hsize : c.nClusterSize.toNat + fuel < 2 ^ 32) (hoffset : c.nOffset.toNat + 2 * fuel < 2 ^ 32)
    (h : extendCluster g fuel c = some c') :
    ∃ members qm, IsCluster g q members qm ∧
      c'.nClusterSize.toNat + 1 = c.nClusterSize.toNat + members.length ∧
      c'.nOffset.toNat + c.zPrime = c.nOffset.toNat + qm + 12 := by
  induction fuel generalizing q k c with
  | zero => cases h
  | succ fuel ih =>
    have htwo : (2 : UInt32).toNat = 2 := rfl
    have hone : (1 : UInt32).toNat = 1 := rfl
    have hoffset' : (c.nOffset + 2).toNat = c.nOffset.toNat + 2 := toNat_add_of_lt (by omega)
    rw [extendCluster] at h
    by_cases hle : c.nPrimeGap ≤ 12
    · have hlt : k < 6 := by
        have hle' := UInt32.le_iff_toNat_le.mp hle
        change _ ≤ 12 at hle'
        omega
      rw [if_pos hle] at h
      cases htest : gmpPrimeTest g (c.zPrime + 2) with
      | none =>
        rw [htest] at h
        cases h
      | some passes =>
        rw [htest] at h
        cases passes with
        | true =>
          have hnext : NextMember g q (c.zPrime + 2) := by
            refine ⟨by omega, by omega, by omega, htest, fun n hlow hhigh hparity => ?_⟩
            exact hfailed n hlow (by omega) hparity
          have hsize' : (c.nClusterSize + 1).toNat = c.nClusterSize.toNat + 1 :=
            toNat_add_of_lt (by omega)
          obtain ⟨members, qm, hcluster, hcount, hend⟩ := ih (q := c.zPrime + 2) (k := 0) rfl rfl
            (by omega) (fun n hlow hhigh => by omega) (by dsimp only; omega)
            (by dsimp only; omega) h
          refine ⟨q :: members, qm, .next hnext hcluster, ?_, ?_⟩
          · rw [List.length_cons]
            dsimp only at hcount
            omega
          · dsimp only at hend
            omega
        | false =>
          have hfailed' : ∀ n, q < n → n ≤ q + 2 * (k + 1) → n % 2 = q % 2 →
              gmpPrimeTest g n ≠ some true := by
            intro n hlow hhigh hparity
            by_cases hn : n ≤ q + 2 * k
            · exact hfailed n hlow hn hparity
            · obtain rfl : n = c.zPrime + 2 := by omega
              rw [htest]
              decide
          have hgap' : (c.nPrimeGap + 2).toNat = c.nPrimeGap.toNat + 2 :=
            toNat_add_of_lt (by omega)
          obtain ⟨members, qm, hcluster, hcount, hend⟩ := ih (q := q) (k := k + 1)
            (by dsimp only; omega) (by dsimp only; omega) (by omega) hfailed' (by dsimp only; omega)
            (by dsimp only; omega) h
          refine ⟨members, qm, hcluster, hcount, ?_⟩
          dsimp only at hend
          omega
    · have hsix : k = 6 := by
        have hle' := mt UInt32.le_iff_toNat_le.mpr hle
        change ¬ _ ≤ 12 at hle'
        omega
      rw [if_neg hle] at h
      cases h
      refine ⟨[q], q, .last fun n hlow hhigh => hfailed n hlow (by omega), rfl, by omega⟩

/-! ### Why the loop ends -/

/-- The six odd numbers from such an `n` on are divided by 5, 3, 7, 11, 3 and 5. -/
theorem gmpPrimeTest_desert {g' : Globals} (h : initializePrimes 80 g = some g') {n j : ℕ}
    (hn : n % 2310 = 115) (hj : j < 6) : gmpPrimeTest g' (n + 2 * j) = some false := by
  interval_cases j
  · exact gmpPrimeTest_of_dvd h (p := 5) (by norm_num) (by norm_num) (by omega)
  · exact gmpPrimeTest_of_dvd h (p := 3) (by norm_num) (by norm_num) (by omega)
  · exact gmpPrimeTest_of_dvd h (p := 7) (by norm_num) (by norm_num) (by omega)
  · exact gmpPrimeTest_of_dvd h (p := 11) (by norm_num) (by norm_num) (by omega)
  · exact gmpPrimeTest_of_dvd h (p := 3) (by norm_num) (by norm_num) (by omega)
  · exact gmpPrimeTest_of_dvd h (p := 5) (by norm_num) (by norm_num) (by omega)

/-- The loop stops before it leaves the six numbers from `n` on: inside them the gap grows with
every step. -/
theorem exists_extendCluster {g' : Globals} (h : initializePrimes 80 g = some g') {n t fuel : ℕ}
    {c : Cluster} (hn : n % 2310 = 115) (hleft : c.zPrime + 2 * t = n + 10)
    (hgap : c.zPrime + 4 ≤ c.nPrimeGap.toNat + n) (ht : t < fuel) :
    ∃ c', extendCluster g' fuel c = some c' := by
  induction fuel generalizing t c with
  | zero => omega
  | succ fuel ih =>
    rw [extendCluster]
    by_cases hle : c.nPrimeGap ≤ 12
    · have hle' := UInt32.le_iff_toNat_le.mp hle
      change _ ≤ 12 at hle'
      rw [if_pos hle]
      cases htest : gmpPrimeTest g' (c.zPrime + 2) with
      | none => exact absurd htest (gmpPrimeTest_ne_none h _)
      | some passes =>
        cases passes with
        | true =>
          -- a number that passes lies before the six
          have hbefore : c.zPrime + 2 < n := by
            by_contra hin
            have hfails := gmpPrimeTest_desert h (j := (c.zPrime + 2 - n) / 2) hn (by omega)
            rw [show n + 2 * ((c.zPrime + 2 - n) / 2) = c.zPrime + 2 by omega, htest] at hfails
            cases hfails
          have htwo : (2 : UInt32).toNat = 2 := rfl
          exact ih (t := t - 1) (by dsimp only; omega) (by dsimp only; omega) (by omega)
        | false =>
          have htwo : (2 : UInt32).toNat = 2 := rfl
          have hgap' : (c.nPrimeGap + 2).toNat = c.nPrimeGap.toNat + 2 :=
            toNat_add_of_lt (by omega)
          exact ih (t := t - 1) (by dsimp only; omega) (by dsimp only; omega) (by omega)
    · exact ⟨c, if_neg hle⟩

/-- Fuel that suffices gives the result that more fuel gives. -/
theorem extendCluster_mono {fuel fuel' : ℕ} {c c' : Cluster} (h : extendCluster g fuel c = some c')
    (hle : fuel ≤ fuel') : extendCluster g fuel' c = some c' := by
  induction fuel generalizing fuel' c with
  | zero => cases h
  | succ fuel ih =>
    obtain ⟨fuel', rfl⟩ := Nat.exists_eq_add_one_of_ne_zero (by omega : fuel' ≠ 0)
    rw [extendCluster] at h ⊢
    by_cases hgap : c.nPrimeGap ≤ 12
    · rw [if_pos hgap] at h ⊢
      cases htest : gmpPrimeTest g (c.zPrime + 2) with
      | none =>
        rw [htest] at h
        cases h
      | some passes =>
        rw [htest] at h
        cases passes with
        | true => exact ih h (by omega)
        | false => exact ih h (by omega)
    · rw [if_neg hgap] at h ⊢
      exact h

theorem odd_of_gmpPrimeTest {g' : Globals} (h : initializePrimes 80 g = some g') {n : ℕ}
    (hpasses : gmpPrimeTest g' n = some true) : n % 2 = 1 := by
  by_contra heven
  have hfails := gmpPrimeTest_of_dvd h (p := 2) (n := n) (by norm_num) Nat.prime_two (by omega)
  rw [hpasses] at hfails
  cases hfails

/-- From an odd number the loop takes at most `1160` steps. -/
theorem exists_extendCluster_of_odd {g' : Globals} (h : initializePrimes 80 g = some g') {p : ℕ}
    (hp : p % 2 = 1) : ∃ c, extendCluster g' 1161 ⟨p, 1, 2, 0⟩ = some c := by
  obtain ⟨n, hlow, hhigh, hn⟩ : ∃ n, p < n ∧ n ≤ p + 2310 ∧ n % 2310 = 115 :=
    ⟨p + 1 + (2424 - p % 2310) % 2310, by omega, by omega, by omega⟩
  have htwo : (2 : UInt32).toNat = 2 := rfl
  exact exists_extendCluster h (t := (n + 10 - p) / 2) hn (by dsimp only; omega)
    (by dsimp only; omega) (by omega)

/-! ### The result of a measurement -/

theorem Cluster.toNat_composite (prime : Uint1024) (c : Cluster) :
    (c.composite prime).toNat = (c.nOffset.toNat + prime.toNat + 2) % 2 ^ 1024 := by
  have htwo : (2 : UInt64).toNat = 2 := rfl
  rw [composite, BaseUint.toNat_add, BaseUint.toNat_add, BaseUint.toNat_ofUInt64,
    BaseUint.toNat_ofUInt64, UInt32.toNat_toUInt64, htwo, Nat.mod_add_mod, add_comm prime.toNat]

/-- The measurement returns for every number: zero where the number does not pass, and otherwise the
length of its chain and a fraction from the number fourteen above the last member. -/
theorem gmpVerification_measures {g' : Globals} (h : initializePrimes 80 g = some g')
    (prime : Uint1024) :
    (gmpPrimeTest g' prime.toNat ≠ some true → ∀ fuel, gmpVerification g' fuel prime = some 0) ∧
      (gmpPrimeTest g' prime.toNat = some true → ∃ members qm c diff,
        IsCluster g' prime.toNat members qm ∧
        c.nClusterSize.toNat = members.length ∧
        (c.composite prime).toNat = (qm + 14) % 2 ^ 1024 ∧
        getFractionalDifficulty (c.composite prime) = some diff ∧
        ∀ fuel ≥ 1161, extendCluster g' fuel ⟨prime.toNat, 1, 2, 0⟩ = some c ∧
          gmpVerification g' fuel prime = some (members.length + fractionalRemainder diff)) := by
  constructor
  · intro hfails fuel
    obtain ⟨passes, htest⟩ := Option.ne_none_iff_exists'.mp (gmpPrimeTest_ne_none h prime.toNat)
    obtain rfl : passes = false := by
      rw [htest] at hfails
      simpa using hfails
    simp [gmpVerification, htest]
  · intro hpasses
    have hodd := odd_of_gmpPrimeTest h hpasses
    obtain ⟨c, hc⟩ := exists_extendCluster_of_odd h hodd
    have hfrom₁ : (1 : UInt32).toNat + 1161 < 2 ^ 32 := by decide
    have hfrom₀ : (0 : UInt32).toNat + 2 * 1161 < 2 ^ 32 := by decide
    obtain ⟨members, qm, hcluster, hcount, hend⟩ := extendCluster_spec (q := prime.toNat) (k := 0)
      rfl rfl (by omega) (fun n hlow hhigh => by omega) hfrom₁ hfrom₀ hc
    have hsize : c.nClusterSize.toNat = members.length := by
      change _ + 1 = 1 + _ at hcount
      omega
    have hcomposite : (c.composite prime).toNat = (qm + 14) % 2 ^ 1024 := by
      change _ + _ = 0 + _ + _ at hend
      rw [Cluster.toNat_composite, hend]
      omega
    have hnonzero : (c.composite prime).toNat ≠ 0 := by
      have hparity := hcluster.parity
      omega
    obtain ⟨diff, hdiff⟩ : ∃ diff, getFractionalDifficulty (c.composite prime) = some diff := by
      rw [getFractionalDifficulty, fermatTest, if_neg hnonzero]
      exact ⟨_, rfl⟩
    refine ⟨members, qm, c, diff, hcluster, hsize, hcomposite, hdiff, fun fuel hfuel => ?_⟩
    have hc' := extendCluster_mono hc hfuel
    refine ⟨hc', ?_⟩
    simp [gmpVerification, hpasses, hc', hdiff, hsize]

theorem passes_eightyThree : Passes 83 := by
  refine ⟨fun p hp hprime hdvd => ?_, by norm_num⟩
  have heq := (Nat.prime_dvd_prime_iff_eq hprime (by norm_num)).mp hdvd
  omega

/-- A prime passes, such as the one thirty-two below the first such row of six. -/
theorem eightyThree_measured : ∃ g', initializePrimes 80 .static = some g' ∧
    ∃ members qm c diff, IsCluster g' 83 members qm ∧ c.nClusterSize.toNat = members.length ∧
      (c.composite (.ofUInt64 30 83)).toNat = (qm + 14) % 2 ^ 1024 ∧
      getFractionalDifficulty (c.composite (.ofUInt64 30 83)) = some diff ∧
      ∀ fuel ≥ 1161, extendCluster g' fuel ⟨83, 1, 2, 0⟩ = some c ∧
        gmpVerification g' fuel (.ofUInt64 30 83) =
          some (members.length + fractionalRemainder diff) := by
  obtain ⟨g', h⟩ := exists_initializePrimes .static
  have hvalue : (BaseUint.ofUInt64 30 83).toNat = 83 := BaseUint.toNat_ofUInt64 30 83
  have hpasses : gmpPrimeTest g' (BaseUint.ofUInt64 30 83).toNat = some true := by
    rw [hvalue]
    exact (gmpPrimeTest_of_initializePrimes h (by norm_num)).mpr passes_eightyThree
  have hmeasured := (gmpVerification_measures h (.ofUInt64 30 83)).2 hpasses
  rw [hvalue] at hmeasured
  exact ⟨g', h, hmeasured⟩

end Prime

end NexusPool
