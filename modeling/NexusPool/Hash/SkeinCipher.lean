import NexusPool.Hash.SkeinBlock

/-!
# The block functions encrypt under Threefish

The words of a round are never moved: the rounds name them in another order each time. Seen in
that order, every round mixes neighbours and permutes, and after four rounds every word is back.
The unrolled key schedule reads the extended key modulo its length. In the loop the array holds,
before each injection, the words of the extended key and of the tweak one place further on, and
the two words written after an injection are those that the circle brings next.
-/

namespace NexusPool

open Threefish (Words Cipher Schedule)

attribute [local instance] InPlace.neZero_three

variable {m : ℕ}

def blockOf (x : Vector UInt64 (2 * m)) : Words m := x.get

theorem blockOf_ofFn (f : Words m) : blockOf (Vector.ofFn f) = f := by
  funext i
  change (Vector.ofFn f)[i] = f i
  simp

namespace SkeinRounds

/-- The word in place `i` of the round `d`. -/
def word (rounds : SkeinRounds m) (d : Fin 4) (i : Fin (2 * m)) : Fin (2 * m) :=
  (rounds.words.get d).get i

def rotation (rounds : SkeinRounds m) (d : Fin 8) (j : Fin m) : UInt64 :=
  (rounds.rotations.get d).get j

/-- Seen from the round before, every round takes the words as the second one does, the first
round after the fourth one too. -/
structure Cyclic (rounds : SkeinRounds m) : Prop where
  start : ∀ i, rounds.word 0 i = i
  next : ∀ d i, rounds.word (d + 1) i = rounds.word d (rounds.word 1 i)
  rotations : ∀ d j, 0 < rounds.rotation d j ∧ rounds.rotation d j < 64

theorem cyclic_skein256Rounds : skein256Rounds.Cyclic where
  start := by decide
  next := by decide
  rotations := by decide

theorem cyclic_skein512Rounds : skein512Rounds.Cyclic where
  start := by decide
  next := by decide +kernel
  rotations := by decide +kernel

theorem cyclic_skein1024Rounds : skein1024Rounds.Cyclic where
  start := by decide +kernel
  next := by decide +kernel
  rotations := by decide +kernel

variable {rounds : SkeinRounds m} (h : rounds.Cyclic)

include h in
theorem Cyclic.third (i : Fin (2 * m)) : rounds.word 3 (rounds.word 1 i) = i :=
  (h.next 3 i).symm.trans (h.start i)

include h in
theorem Cyclic.words_three (i : Fin (2 * m)) :
    rounds.word 3 i = rounds.word 1 (rounds.word 1 (rounds.word 1 i)) := by
  have htwo : ∀ i, rounds.word 2 i = rounds.word 1 (rounds.word 1 i) := fun i => h.next 1 i
  have hthree : rounds.word 3 i = rounds.word 2 (rounds.word 1 i) := h.next 2 i
  rw [hthree, htwo]

def permutation : Equiv.Perm (Fin (2 * m)) where
  toFun := rounds.word 1
  invFun := rounds.word 3
  left_inv i := h.third i
  right_inv i := by
    have hthird := h.third i
    rw [h.words_three] at hthird
    rw [h.words_three]
    exact hthird

def cipher (rcnt : ℕ) : Cipher m where
  groups := 2 * rcnt
  permutation := permutation h
  rotation d j := (rounds.rotation d j).toNat

include h in
theorem Cyclic.words_injective (d : Fin 4) :
    Function.Injective (rounds.word d) := by
  have hnext : ∀ d, Function.Injective (rounds.word d) →
      Function.Injective (rounds.word (d + 1)) := by
    intro d hd i i' hii'
    rw [h.next, h.next] at hii'
    exact (permutation h).injective (hd hii')
  have hzero : Function.Injective (rounds.word 0) :=
    fun i i' hii' => (h.start i).symm.trans (hii'.trans (h.start i'))
  have hone := hnext 0 hzero
  have htwo := hnext 1 hone
  match d with
  | 0 => exact hzero
  | 1 => exact hone
  | 2 => exact htwo
  | 3 => exact hnext 2 htwo

/-- The words in the order in which a round takes them. -/
def arranged (rounds : SkeinRounds m) (d : Fin 4) (x : Vector UInt64 (2 * m)) : Words m :=
  fun i => x.get (rounds.word d i)

end SkeinRounds

namespace SkeinBlock

variable {k rcnt : ℕ} {rounds : SkeinRounds m} (h : rounds.Cyclic) {x : Vector UInt64 (2 * m)}

/-! ### Rounds -/

include h in
theorem arranged_round (d : Fin 4) (e : Fin 8) :
    rounds.arranged d (round (rounds.words.get d) (rounds.rotations.get e) x) =
      Threefish.mix (fun j => (rounds.rotation e j).toNat) (rounds.arranged d x) := by
  have hpair : ∀ j : Fin m, Threefish.mixPair (rounds.rotation e j).toNat
      (rounds.arranged d x (Threefish.evenIndex j), rounds.arranged d x (Threefish.oddIndex j)) =
      (let pair := (x[rounds.word d (Threefish.evenIndex j)],
        x[rounds.word d (Threefish.oddIndex j)])
       (pair.1 + pair.2, rotL64 pair.2 (rounds.rotation e j) ^^^ (pair.1 + pair.2))) := by
    intro j
    obtain ⟨hpos, hlt⟩ := h.rotations e j
    simp only [Threefish.mixPair, rotL64]
    rw [Rotation.shift_or_shift _ hpos hlt]
    rfl
  have hinjective := h.words_injective d
  have hfirst : Function.Injective fun j : Fin m => rounds.word d (Threefish.evenIndex j) := by
    intro j j' hj
    have heven : Threefish.evenIndex j = Threefish.evenIndex j' := hinjective hj
    simpa [Threefish.evenIndex, Fin.ext_iff] using heven
  have hsecond : Function.Injective fun j : Fin m => rounds.word d (Threefish.oddIndex j) := by
    intro j j' hj
    have hodd : Threefish.oddIndex j = Threefish.oddIndex j' := hinjective hj
    simpa [Threefish.oddIndex, Fin.ext_iff] using hodd
  have hne : ∀ j j' : Fin m,
      rounds.word d (Threefish.evenIndex j) ≠ rounds.word d (Threefish.oddIndex j') := by
    intro j j' hj
    have hindex : Threefish.evenIndex j = Threefish.oddIndex j' := hinjective hj
    simp only [Threefish.evenIndex, Threefish.oddIndex, Fin.ext_iff] at hindex
    omega
  funext i
  obtain ⟨j, rfl | rfl⟩ := Threefish.index_cases i
  · rw [Threefish.mix_evenIndex, hpair]
    exact (InPlace.getElem_updatePairs hfirst hsecond hne (List.nodup_finRange m)
      (List.mem_finRange j)).1
  · rw [Threefish.mix_oddIndex, hpair]
    exact (InPlace.getElem_updatePairs hfirst hsecond hne (List.nodup_finRange m)
      (List.mem_finRange j)).2

/-- The round after takes the words permuted. -/
theorem arranged_succ_round (d : Fin 4) (e : Fin 8) :
    rounds.arranged (d + 1) (round (rounds.words.get d) (rounds.rotations.get e) x) =
      Threefish.round (SkeinRounds.cipher h rcnt) e (rounds.arranged d x) := by
  funext i
  have hround := congrFun (@arranged_round m rounds h x d e) (SkeinRounds.permutation h i)
  exact (congrArg (round (rounds.words.get d) (rounds.rotations.get e) x).get
    (h.next d i)).trans hround

theorem blockOf_fourRounds (g : ℕ) (first : Fin 5) (hfirst : first.val = 4 * (g % 2)) :
    blockOf (fourRounds rounds first x) =
      Threefish.fourRounds (SkeinRounds.cipher h rcnt) g (blockOf x) := by
  have hstart : ∀ y : Vector UInt64 (2 * m), rounds.arranged 0 y = blockOf y := by
    intro y
    funext i
    exact congrArg y.get (h.start i)
  have hturn : ∀ (d : Fin 4) (y : Vector UInt64 (2 * m)),
      rounds.arranged (d + 1) (round rounds.words[d] rounds.rotations[first.val + d.val] y) =
        Threefish.round (SkeinRounds.cipher h rcnt) (Fin.ofNat 8 (4 * g + d.val))
          (rounds.arranged d y) := by
    intro d y
    have hindex : first.val + d.val = (Fin.ofNat 8 (4 * g + d.val)).val := by
      simp only [Fin.val_ofNat]
      omega
    simp only [hindex]
    exact arranged_succ_round h d _
  rw [← hstart, ← hstart]
  have htwo := (hturn 1 _).trans (congrArg _ (hturn 0 x))
  exact (hturn 3 _).trans (congrArg _ ((hturn 2 _).trans (congrArg _ htwo)))

/-! ### The key array -/

section Keys

variable {schedule : Schedule m} {p : ℕ} {kw : Vector UInt64 k}

/-- The array after `p` injections: the extended key and the tweak, each from its word `p` on,
and still the words of the tweak that the next block needs. -/
structure Holds (schedule : Schedule m) (p : ℕ) (kw : Vector UInt64 k) : Prop where
  key : ∀ j, p ≤ j → j ≤ p + 2 * m →
    kw[3 + j]? = some (schedule.key (Fin.ofNat (2 * m + 1) j))
  tweak : ∀ j, p ≤ j → j ≤ p + 2 → kw[j]? = some (schedule.tweak (Fin.ofNat 3 j))
  counted : kw[0]? = some (schedule.tweak 0)
  flags : kw[1]? = some (schedule.tweak 1)

theorem blockOf_injectWords {key : Fin (2 * m) → UInt64} {t₀ t₁ : UInt64} {s : ℕ}
    (hkey : ∀ i, key i = schedule.key (Fin.ofNat (2 * m + 1) (s + i.val)))
    (ht₀ : t₀ = schedule.tweak (Fin.ofNat 3 s)) (ht₁ : t₁ = schedule.tweak (Fin.ofNat 3 (s + 1))) :
    blockOf (injectWords x key t₀ t₁ (UInt64.ofNat s)) =
      Threefish.addKey schedule s (blockOf x) := by
  funext i
  have hword : blockOf x i = x[i] := rfl
  simp only [injectWords, blockOf_ofFn, Threefish.addKey, Threefish.subkey, Threefish.extra,
    hword, hkey, ht₀, ht₁]
  split_ifs <;> simp

theorem getElem_of_holds {i : ℕ} {a : UInt64} (h : kw[i]? = some a) (hi : i < k) : kw[i] = a := by
  rw [Vector.getElem?_eq_getElem hi] at h
  exact Option.some.inj h

/-- The words that an injection writes close the circle. -/
theorem holds_set {r : ℕ} (hkw : Holds schedule r kw) (hk : 3 + (r + 1 + 2 * m) < k) :
    Holds schedule (r + 1)
      ((kw.set (3 + (r + 1 + 2 * m)) kw[3 + r]).set (r + 3)
        (kw.set (3 + (r + 1 + 2 * m)) kw[3 + r])[r]) := by
  have hkey := getElem_of_holds (hkw.key r le_rfl (Nat.le_add_right _ _)) (by omega)
  have htweak := getElem_of_holds (hkw.tweak r le_rfl (Nat.le_add_right _ _)) (by omega)
  have hcircle : Fin.ofNat (2 * m + 1) (r + 1 + 2 * m) = Fin.ofNat (2 * m + 1) r :=
    Fin.ext (by simp [show r + 1 + 2 * m = r + (2 * m + 1) by omega])
  have hthree : Fin.ofNat 3 (r + 3) = Fin.ofNat 3 r := Fin.ext (by simp)
  have hread : (kw.set (3 + (r + 1 + 2 * m)) kw[3 + r])[r] = schedule.tweak (Fin.ofNat 3 r) :=
    (Vector.getElem_set_ne _ _ (by omega)).trans htweak
  rw [hread, hkey]
  constructor
  · intro j hj hj'
    rw [Vector.getElem?_set_ne _ (by omega), Vector.getElem?_set]
    split_ifs with hlast
    · rw [← show r + 1 + 2 * m = j by omega, hcircle]
    · exact hkw.key j (by omega) (by omega)
  · intro j hj hj'
    rw [Vector.getElem?_set]
    split_ifs with hlast
    · rw [← hlast, hthree]
    · rw [Vector.getElem?_set_ne _ (by omega)]
      exact hkw.tweak j (by omega) (by omega)
  · rw [Vector.getElem?_set_ne _ (by omega), Vector.getElem?_set_ne _ (by omega)]
    exact hkw.counted
  · rw [Vector.getElem?_set_ne _ (by omega), Vector.getElem?_set_ne _ (by omega)]
    exact hkw.flags

theorem injectLooping_spec {r : Fin (2 * rcnt)} {kw : Vector UInt64 (2 * m + 4 + 2 * rcnt)}
    (hkw : Holds schedule r.val kw) :
    Holds schedule (r.val + 1) (injectLooping r (kw, x)).1 ∧
      blockOf (injectLooping r (kw, x)).2 = Threefish.addKey schedule (r.val + 1) (blockOf x) := by
  refine ⟨holds_set hkw (by omega), blockOf_injectWords (fun i => ?_) ?_ ?_⟩
  · exact getElem_of_holds (hkw.key _ (by omega) (by omega)) (by omega)
  · exact getElem_of_holds (hkw.tweak _ (by omega) (by omega)) (by omega)
  · exact getElem_of_holds (hkw.tweak _ (by omega) (by omega)) (by omega)

/-- Modulo the length of the extended key, every word is among the first. -/
theorem injectUnrolled_spec {r : ℕ} {kw : Vector UInt64 (2 * m + 4)} (hkw : Holds schedule 0 kw) :
    Holds schedule 0 (injectUnrolled r (kw, x)).1 ∧
      blockOf (injectUnrolled r (kw, x)).2 = Threefish.addKey schedule (r + 1) (blockOf x) := by
  have hkey : ∀ j, kw[@ksIndex m j] = schedule.key (Fin.ofNat (2 * m + 1) j) := by
    intro j
    have hj : j % (2 * m + 1) < 2 * m + 1 := Nat.mod_lt _ (Nat.succ_pos _)
    have hword := getElem_of_holds (hkw.key (j % (2 * m + 1)) (Nat.zero_le _) (by omega)) (by omega)
    exact hword.trans (congrArg schedule.key (Fin.ext (by simp)))
  have htweak : ∀ j, kw[@tsIndex m j] = schedule.tweak (Fin.ofNat 3 j) := by
    intro j
    have hword := getElem_of_holds (hkw.tweak (j % 3) (Nat.zero_le _) (by omega)) (by omega)
    exact hword.trans (congrArg schedule.tweak (Fin.ext (by simp)))
  have hcount : UInt64.ofNat r + 1 = UInt64.ofNat (r + 1) := by simp
  refine ⟨hkw, ?_⟩
  simp only [injectUnrolled, hcount]
  exact blockOf_injectWords (fun i => hkey _) (htweak _) (htweak _)

end Keys

/-! ### The rounds of a block -/

section Rounds

variable {schedule : Schedule m} {Key : ℕ → Vector UInt64 k → Prop}

/-- Whatever the array holds before each injection, if the injections are those of the
schedule, the rounds are those of the cipher. -/
theorem eightRounds_spec {r : ℕ} {inject : Fin 2 → Registers m k → Registers m k}
    (hinject : ∀ half kw x, Key (2 * r + half.val) kw →
      Key (2 * r + half.val + 1) (inject half (kw, x)).1 ∧
        blockOf (inject half (kw, x)).2 =
          Threefish.addKey schedule (2 * r + half.val + 1) (blockOf x))
    {s : Registers m k} (hs : Key (2 * r) s.1) :
    Key (2 * (r + 1)) (eightRounds rounds inject s).1 ∧
      blockOf (eightRounds rounds inject s).2 =
        [2 * r, 2 * r + 1].foldl (fun v g => Threefish.addKey schedule (g + 1)
          (Threefish.fourRounds (SkeinRounds.cipher h rcnt) g v)) (blockOf s.2) := by
  obtain ⟨hkey, hwords⟩ := hinject 0 s.1 (fourRounds rounds 0 s.2) hs
  obtain ⟨hkey', hwords'⟩ := hinject 1 _
    (fourRounds rounds 4 (inject 0 (s.1, fourRounds rounds 0 s.2)).2) hkey
  refine ⟨hkey', ?_⟩
  rw [blockOf_fourRounds h (2 * r) 0 (by simp)] at hwords
  rw [blockOf_fourRounds h (2 * r + 1) 4 (by simp), hwords] at hwords'
  exact hwords'

theorem foldl_eightRounds {inject : Fin rcnt → Fin 2 → Registers m k → Registers m k}
    (hinject : ∀ r half kw x, Key (2 * r.val + half.val) kw →
      Key (2 * r.val + half.val + 1) (inject r half (kw, x)).1 ∧
        blockOf (inject r half (kw, x)).2 =
          Threefish.addKey schedule (2 * r.val + half.val + 1) (blockOf x))
    {rs : List (Fin rcnt)} {a : ℕ} (hrs : rs.map Fin.val = List.range' a rs.length)
    {s : Registers m k} (hs : Key (2 * a) s.1) :
    Key (2 * (a + rs.length)) (rs.foldl (fun s r => eightRounds rounds (inject r) s) s).1 ∧
      blockOf (rs.foldl (fun s r => eightRounds rounds (inject r) s) s).2 =
        (List.range' (2 * a) (2 * rs.length)).foldl (fun v g => Threefish.addKey schedule (g + 1)
          (Threefish.fourRounds (SkeinRounds.cipher h rcnt) g v)) (blockOf s.2) := by
  induction rs generalizing a s with
  | nil => exact ⟨hs, rfl⟩
  | cons r rs ih =>
    simp only [List.map_cons, List.length_cons, List.range'_succ, List.cons.injEq] at hrs
    obtain ⟨rfl, hrs⟩ := hrs
    obtain ⟨hkey, hwords⟩ :=
      @eightRounds_spec m k rcnt rounds h schedule Key r.val _ (hinject r) s hs
    obtain ⟨hkey', hwords'⟩ := ih hrs hkey
    rw [List.foldl_cons, List.length_cons,
      show r.val + (rs.length + 1) = r.val + 1 + rs.length by omega]
    refine ⟨hkey', hwords'.trans ?_⟩
    rw [hwords, show 2 * (rs.length + 1) = 2 * rs.length + 1 + 1 by omega, List.range'_succ,
      List.range'_succ, show 2 * (r.val + 1) = 2 * r.val + 1 + 1 by omega]
    simp only [List.foldl_cons, List.foldl_nil]

/-- What the rounds of a block function are for: they encrypt, from the second subkey on, and
leave the words of the tweak for the next block. -/
def Encrypts (cipher : Cipher m) (rounds : Registers m k → Registers m k) : Prop :=
  ∀ (schedule : Schedule m) (kw : Vector UInt64 k) (x : Vector UInt64 (2 * m)),
    Holds schedule 0 kw →
    (rounds (kw, x)).1[0]? = some (schedule.tweak 0) ∧
      (rounds (kw, x)).1[1]? = some (schedule.tweak 1) ∧
      blockOf (rounds (kw, x)).2 =
        (List.range cipher.groups).foldl (fun v g => Threefish.addKey schedule (g + 1)
          (Threefish.fourRounds cipher g v)) (blockOf x)

theorem encrypts_roundsLooping :
    Encrypts (SkeinRounds.cipher h rcnt) (roundsLooping rounds rcnt) := by
  intro schedule kw x hkw
  have hinject : ∀ (r : Fin rcnt) (half : Fin 2) (kw : Vector UInt64 (2 * m + 4 + 2 * rcnt))
      (x : Vector UInt64 (2 * m)), Holds schedule (2 * r.val + half.val) kw →
      Holds schedule (2 * r.val + half.val + 1)
          (injectLooping ⟨2 * r.val + half.val, by omega⟩ (kw, x)).1 ∧
        blockOf (injectLooping ⟨2 * r.val + half.val, by omega⟩ (kw, x)).2 =
          Threefish.addKey schedule (2 * r.val + half.val + 1) (blockOf x) :=
    fun r half kw x hkw => @injectLooping_spec m rcnt x schedule ⟨2 * r.val + half.val, _⟩ kw hkw
  have hall : (List.finRange rcnt).map Fin.val = List.range' 0 (List.finRange rcnt).length := by
    simp [List.range_eq_range']
  obtain ⟨hkey, hwords⟩ := @foldl_eightRounds m _ rcnt rounds h schedule _ _ hinject _ 0 hall
    (kw, x) hkw
  refine ⟨hkey.counted, hkey.flags, hwords.trans ?_⟩
  simp [SkeinRounds.cipher, List.range_eq_range']

theorem encrypts_roundsUnrolled :
    Encrypts (SkeinRounds.cipher h rcnt) (roundsUnrolled rounds rcnt) := by
  intro schedule kw x hkw
  have hall : (List.finRange rcnt).map Fin.val = List.range' 0 (List.finRange rcnt).length := by
    simp [List.range_eq_range']
  obtain ⟨hkey, hwords⟩ := @foldl_eightRounds m _ rcnt rounds h schedule
    (fun _ => Holds schedule 0) _ (fun r half kw x hkw => injectUnrolled_spec hkw) _ 0 hall
    (kw, x) hkw
  have hrange : roundsUnrolled rounds rcnt (kw, x) = (List.finRange rcnt).foldl
      (fun s r => eightRounds rounds (fun half => injectUnrolled (2 * r.val + half.val)) s)
      (kw, x) := by
    rw [roundsUnrolled, ← List.map_coe_finRange_eq_range, List.foldl_map]
  rw [hrange]
  refine ⟨hkey.counted, hkey.flags, hwords.trans ?_⟩
  simp [SkeinRounds.cipher, List.range_eq_range']

end Rounds

/-! ### Blocks -/

/-- What a block does to the chaining variables and the tweak. -/
def compress (cipher : Cipher m) (byteCntAdd : UInt64) (c : Chain m)
    (w : Vector UInt64 (2 * m)) : Chain m :=
  let t₀ := c.t₀ + byteCntAdd
  let schedule := Threefish.schedule skeinKsParity (blockOf c.x) t₀ c.t₁
  { x := Vector.ofFn fun i => Threefish.encrypt cipher schedule (blockOf w) i ^^^ blockOf w i
    t₀, t₁ := c.t₁ &&& ~~~skeinT1FlagFirst }

/-- What is xored with the block is a permutation of it. -/
theorem compress_injective (cipher : Cipher m) (byteCntAdd : UInt64) (c : Chain m) :
    Function.Injective fun w : Vector UInt64 (2 * m) =>
      Vector.ofFn fun i => blockOf (compress cipher byteCntAdd c w).x i ^^^ blockOf w i := by
  intro w w' h
  have hencrypt : blockOf w = blockOf w' := by
    apply Threefish.encrypt_injective cipher
      (Threefish.schedule skeinKsParity (blockOf c.x) (c.t₀ + byteCntAdd) c.t₁)
    funext i
    have hword := congrArg (fun v : Vector UInt64 (2 * m) => v[i]) h
    simpa [compress, blockOf_ofFn, UInt64.xor_assoc] using hword
  exact Vector.ext fun i hi => congrFun hencrypt ⟨i, hi⟩

section Blocks

variable (hk : 2 * m + 4 ≤ k) {kw : Vector UInt64 k} {chain : Vector UInt64 (2 * m)}

/-- The schedule is all in the first words of the array. -/
theorem holds_precompute :
    Holds (Threefish.schedule skeinKsParity (blockOf chain) (chainOf hk (kw, chain)).t₀
      (chainOf hk (kw, chain)).t₁) 0 (precompute hk chain kw) := by
  let filled := (List.finRange (2 * m)).foldl (fun kw i => kw.set (3 + i.val) chain[i]) kw
  have hword : ∀ (j : ℕ) (hj : j < 2 * m), filled[3 + j] = chain[j] := by
    intro j hj
    have hnodup : ((List.finRange (2 * m)).map
        fun i : Fin (2 * m) => (⟨3 + i.val, by omega⟩ : Fin k)).Nodup :=
      (List.nodup_finRange _).map fun i i' h => by simpa [Fin.ext_iff] using h
    exact @InPlace.getElem_update_of_mem _ _ _ (fun i : Fin (2 * m) => ⟨3 + i.val, by omega⟩)
      (fun i _ => chain[i]) kw _ ⟨j, hj⟩ hnodup (List.mem_finRange _)
  have hbelow : ∀ (j : ℕ) (hj : j < 3), filled[j] = kw[j] := by
    intro j hj
    refine @InPlace.getElem_update_of_notMem _ _ _ (fun i : Fin (2 * m) => ⟨3 + i.val, by omega⟩)
      (fun i _ => chain[i]) kw (List.finRange (2 * m)) ⟨j, by omega⟩ ?_
    simp [Fin.ext_iff]
    omega
  have hparity : (List.finRange (2 * m)).map (fun i => filled[3 + i.val]) =
      (List.finRange (2 * m)).map (blockOf chain) :=
    List.map_congr_left fun i _ => hword i.val i.isLt
  have hprecompute : precompute hk chain kw = (filled.set (3 + 2 * m)
      (((List.finRange (2 * m)).map (blockOf chain)).foldl (· ^^^ ·) 0 ^^^ skeinKsParity)).set 2
        (kw[0] ^^^ kw[1]) := by
    have hkeep : ∀ (a : UInt64) (j : ℕ) (hj : j < 2),
        (filled.set (3 + 2 * m) a)[j] = kw[j] := fun a j hj =>
      (Vector.getElem_set_ne _ _ (by omega)).trans (hbelow j (by omega))
    rw [← hparity]
    change (filled.set (3 + 2 * m) _).set 2 ((filled.set (3 + 2 * m) _)[0] ^^^
      (filled.set (3 + 2 * m) _)[1]) = _
    rw [hkeep _ 0 (by omega), hkeep _ 1 (by omega)]
  have htweak : ∀ j (hj : j < 2), ((filled.set (3 + 2 * m)
      (((List.finRange (2 * m)).map (blockOf chain)).foldl (· ^^^ ·) 0 ^^^ skeinKsParity)).set 2
        (kw[0] ^^^ kw[1]))[j]? = some kw[j] := by
    intro j hj
    rw [Vector.getElem?_set_ne _ (by omega), Vector.getElem?_set_ne _ (by omega),
      Vector.getElem?_eq_getElem (by omega), hbelow j (by omega)]
  rw [hprecompute]
  refine ⟨fun j _ hj => ?_, fun j _ hj => ?_, htweak 0 (by omega), htweak 1 (by omega)⟩
  · have hval : (Fin.ofNat (2 * m + 1) j).val = j := by
      simp only [Fin.val_ofNat]
      exact Nat.mod_eq_of_lt (by omega)
    rw [Vector.getElem?_set_ne _ (by omega), Vector.getElem?_set]
    simp only [Threefish.schedule, hval]
    split_ifs with hlast hlt hlt
    · omega
    · rfl
    · rw [Vector.getElem?_eq_getElem (by omega), hword j hlt]
      rfl
    · omega
  · obtain rfl | rfl | rfl : j = 0 ∨ j = 1 ∨ j = 2 := by omega
    · exact htweak 0 (by omega)
    · exact htweak 1 (by omega)
    · rw [Vector.getElem?_set_self]
      rfl

variable {hk} {cipher : Cipher m} {rounds : Registers m k → Registers m k} {byteCntAdd : UInt64}

theorem chainOf_processOne (hrounds : Encrypts cipher rounds) (s : Registers m k)
    (w : Vector UInt64 (2 * m)) :
    chainOf hk (processOne hk rounds byteCntAdd s w) =
      compress cipher byteCntAdd (chainOf hk s) w := by
  obtain ⟨kw, chain⟩ := s
  let kw₀ := precompute hk chain (kw.set 0 (kw[0] + byteCntAdd))
  let schedule := Threefish.schedule skeinKsParity (blockOf chain) (kw[0] + byteCntAdd) kw[1]
  have hkw : Holds schedule 0 kw₀ := by
    have hset := @holds_precompute m k hk (kw.set 0 (kw[0] + byteCntAdd)) chain
    simp only [chainOf] at hset
    rwa [Vector.getElem_set_self, Vector.getElem_set_ne _ _ (by omega)] at hset
  let x₀ : Vector UInt64 (2 * m) := Vector.ofFn fun i =>
    if i.val + 3 = 2 * m then w[i] + kw₀[3 + i.val] + kw₀[0]
    else if i.val + 2 = 2 * m then w[i] + kw₀[3 + i.val] + kw₀[1]
    else w[i] + kw₀[3 + i.val]
  have hx₀ : blockOf x₀ = Threefish.addKey schedule 0 (blockOf w) := by
    funext i
    have hkey : kw₀[3 + i.val] = schedule.key (Fin.ofNat (2 * m + 1) (0 + i.val)) := by
      rw [Nat.zero_add]
      exact getElem_of_holds (hkw.key i (by omega) (by omega)) (by omega)
    have ht₀ : kw₀[0] = schedule.tweak 0 := getElem_of_holds hkw.counted (by omega)
    have ht₁ : kw₀[1] = schedule.tweak 1 := getElem_of_holds hkw.flags (by omega)
    have hword : blockOf w i = w[i] := rfl
    simp only [x₀, blockOf_ofFn, Threefish.addKey, Threefish.subkey, Threefish.extra, hword, hkey,
      ht₀, ht₁]
    split_ifs
    · exact UInt64.add_assoc _ _ _
    · exact UInt64.add_assoc _ _ _
    · simp
    · simp
  obtain ⟨ht₀, ht₁, hwords⟩ := hrounds schedule kw₀ x₀ hkw
  have hprocess : processOne hk rounds byteCntAdd (kw, chain) w =
      ((rounds (kw₀, x₀)).1.set 1 ((rounds (kw₀, x₀)).1[1] &&& ~~~skeinT1FlagFirst),
        Vector.ofFn fun i => (rounds (kw₀, x₀)).2[i] ^^^ w[i]) := rfl
  rw [hprocess]
  refine Chain.ext (Vector.ext fun i hi => ?_) ?_ ?_
  · have hword := congrFun hwords ⟨i, hi⟩
    rw [hx₀] at hword
    simp only [chainOf, compress, Vector.getElem_ofFn]
    exact congrArg (· ^^^ w[i]) hword
  · exact (Vector.getElem_set_ne (by omega : 1 < k) _ Nat.one_ne_zero).trans
      (getElem_of_holds ht₀ (by omega))
  · refine (Vector.getElem_set_self _).trans ?_
    rw [getElem_of_holds ht₁ (by omega)]
    rfl

theorem processBlocks_eq (hrounds : Encrypts cipher rounds) (junk : Vector UInt64 k) (c : Chain m)
    (blocks : List (Vector UInt64 (2 * m))) :
    processBlocks hk rounds junk c blocks byteCntAdd =
      blocks.foldl (compress cipher byteCntAdd) c := by
  have hloop := @List.foldl_hom _ _ _ (chainOf hk) (processOne hk rounds byteCntAdd)
    (compress cipher byteCntAdd) blocks ((junk.set 0 c.t₀).set 1 c.t₁, c.x)
    (fun s w => (chainOf_processOne hrounds s w).symm)
  have hstart : chainOf hk ((junk.set 0 c.t₀).set 1 c.t₁, c.x) = c := by
    refine Chain.ext rfl ?_ ?_
    · exact (Vector.getElem_set_ne (by omega : 1 < k) _ Nat.one_ne_zero).trans
        (Vector.getElem_set_self _)
    · exact Vector.getElem_set_self _
  rw [hstart] at hloop
  exact hloop.symm

end Blocks

/-- The loop, which never looks a word up modulo anything, and the unrolled rounds make the same
of every row of blocks, whatever their arrays hold at first. -/
theorem processBlocks_looping_eq_unrolled (h : rounds.Cyclic)
    (junk : Vector UInt64 (2 * m + 4 + 2 * rcnt)) (junk' : Vector UInt64 (2 * m + 4)) (c : Chain m)
    (blocks : List (Vector UInt64 (2 * m))) (byteCntAdd : UInt64) :
    processBlocks (Nat.le_add_right _ _) (roundsLooping rounds rcnt) junk c blocks byteCntAdd =
      processBlocks le_rfl (roundsUnrolled rounds rcnt) junk' c blocks byteCntAdd := by
  rw [processBlocks_eq (encrypts_roundsLooping h), processBlocks_eq (encrypts_roundsUnrolled h)]

theorem processBlocks_looping_eq_unrolled_skein1024 :
    processBlocks (Nat.le_add_right _ _) (roundsLooping skein1024Rounds 10)
        (Vector.replicate _ 7) ⟨Vector.replicate _ 1, 0, skeinT1FlagFirst⟩
        [Vector.replicate _ 2, Vector.replicate _ 3] 128 =
      processBlocks le_rfl (roundsUnrolled skein1024Rounds 10)
        (Vector.replicate _ 0) ⟨Vector.replicate _ 1, 0, skeinT1FlagFirst⟩
        [Vector.replicate _ 2, Vector.replicate _ 3] 128 :=
  processBlocks_looping_eq_unrolled SkeinRounds.cyclic_skein1024Rounds _ _ _ _ _

end SkeinBlock

open SkeinBlock

/-! ### The three block functions -/

def threefish256 : Cipher 2 := SkeinRounds.cipher SkeinRounds.cyclic_skein256Rounds 9

def threefish512 : Cipher 4 := SkeinRounds.cipher SkeinRounds.cyclic_skein512Rounds 9

def threefish1024 : Cipher 8 := SkeinRounds.cipher SkeinRounds.cyclic_skein1024Rounds 10

theorem skein256ProcessBlock_eq (junk : Vector UInt64 8) (c : Chain 2)
    (blocks : List (Vector UInt64 4)) (byteCntAdd : UInt64) :
    skein256ProcessBlock junk c blocks byteCntAdd =
      blocks.foldl (compress threefish256 byteCntAdd) c :=
  processBlocks_eq (encrypts_roundsUnrolled SkeinRounds.cyclic_skein256Rounds) junk c blocks

theorem skein512ProcessBlock_eq (junk : Vector UInt64 12) (c : Chain 4)
    (blocks : List (Vector UInt64 8)) (byteCntAdd : UInt64) :
    skein512ProcessBlock junk c blocks byteCntAdd =
      blocks.foldl (compress threefish512 byteCntAdd) c :=
  processBlocks_eq (encrypts_roundsUnrolled SkeinRounds.cyclic_skein512Rounds) junk c blocks

theorem skein1024ProcessBlock_eq (junk : Vector UInt64 40) (c : Chain 8)
    (blocks : List (Vector UInt64 16)) (byteCntAdd : UInt64) :
    skein1024ProcessBlock junk c blocks byteCntAdd =
      blocks.foldl (compress threefish1024 byteCntAdd) c :=
  processBlocks_eq (@encrypts_roundsLooping 8 10 _ SkeinRounds.cyclic_skein1024Rounds) junk c
    blocks

/-- Each of the three block functions runs the blocks through its cipher, under the chaining
variables and the tweak. -/
theorem skeinProcessBlock_eq_compress :
    (∀ junk c blocks byteCntAdd, skein256ProcessBlock junk c blocks byteCntAdd =
        blocks.foldl (compress threefish256 byteCntAdd) c) ∧
      (∀ junk c blocks byteCntAdd, skein512ProcessBlock junk c blocks byteCntAdd =
        blocks.foldl (compress threefish512 byteCntAdd) c) ∧
      ∀ junk c blocks byteCntAdd, skein1024ProcessBlock junk c blocks byteCntAdd =
        blocks.foldl (compress threefish1024 byteCntAdd) c :=
  ⟨skein256ProcessBlock_eq, skein512ProcessBlock_eq, skein1024ProcessBlock_eq⟩

/-- Without the block that is xored to it at the end, what a block function makes of a block is a
permutation of all blocks, whatever the chaining variables and the tweak are. -/
theorem skeinProcessBlock_bijective :
    (∀ junk c byteCntAdd, Function.Bijective fun w : Vector UInt64 4 =>
        Vector.ofFn fun i =>
          (skein256ProcessBlock junk c [w] byteCntAdd).x.get i ^^^ w.get i) ∧
      (∀ junk c byteCntAdd, Function.Bijective fun w : Vector UInt64 8 =>
        Vector.ofFn fun i =>
          (skein512ProcessBlock junk c [w] byteCntAdd).x.get i ^^^ w.get i) ∧
      ∀ junk c byteCntAdd, Function.Bijective fun w : Vector UInt64 16 =>
        Vector.ofFn fun i =>
          (skein1024ProcessBlock junk c [w] byteCntAdd).x.get i ^^^ w.get i := by
  have hword : Finite UInt64 :=
    Finite.of_injective UInt64.toFin fun _ _ h => UInt64.toFin_inj.mp h
  have hblock : ∀ n, Finite (Vector UInt64 n) := fun n =>
    Finite.of_injective (fun (w : Vector UInt64 n) (i : Fin n) => w[i]) fun w w' h =>
      Vector.ext fun i hi => congrFun h ⟨i, hi⟩
  refine ⟨fun junk c byteCntAdd => ?_, fun junk c byteCntAdd => ?_, fun junk c byteCntAdd => ?_⟩
  · have := hblock 4
    simp only [skein256ProcessBlock_eq]
    exact Finite.injective_iff_bijective.mp (compress_injective threefish256 byteCntAdd c)
  · have := hblock 8
    simp only [skein512ProcessBlock_eq]
    exact Finite.injective_iff_bijective.mp (compress_injective threefish512 byteCntAdd c)
  · have := hblock 16
    simp only [skein1024ProcessBlock_eq]
    exact Finite.injective_iff_bijective.mp (compress_injective threefish1024 byteCntAdd c)

end NexusPool
