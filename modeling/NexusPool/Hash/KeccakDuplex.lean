import NexusPool.Hash.KeccakHash

/-!
# The Keccak duplex of `KeccakDuplex.cpp`

A call takes the bits of its input with their padding over the state, permutes it and gives out
the beginning of it. The rate is any number of bits, so a call may end within a byte on both
sides. What a call gives out is what the sponge gives for the inputs of all calls up to it, each
with its padding.
-/

namespace NexusPool

open BitPadding KeccakF1600 KeccakSponge

structure KeccakDuplexInstance where
  state : KeccakState
  rate : UInt32

namespace KeccakDuplex

/-! ### The functions -/

def duplexInitialize (duplex : KeccakDuplexInstance) (rate capacity : UInt32) :
    HashReturn × KeccakDuplexInstance :=
  if rate + capacity ≠ 1600 then (.fail, duplex)
  else if rate ≤ 2 ∨ rate > 1600 then (.fail, duplex)
  else
    (.success,
      { state := stateInitialize
        rate })

/-- The last byte keeps the bits that belong to the rate. -/
def maskLastByte (rate zByteLen : UInt32) (z : Bytes) : Bytes :=
  if zByteLen * 8 > rate then
    z.modify (zByteLen.toNat - 1) (· &&& (UInt8.ofNat (1 <<< (rate.toNat % 8)) - 1))
  else z

/-- What a call does once its arguments are accepted. -/
def duplexBlock (duplex : KeccakDuplexInstance) (sigmaBegin : Bytes)
    (sigmaBeginByteLen zByteLen : UInt32) (delimitedSigmaEnd : UInt8) :
    Option (HashReturn × Bytes × KeccakDuplexInstance) := do
  let length := sigmaBeginByteLen.toNat
  let state ← absorbRest length duplex.state sigmaBegin
  let state ← stateXORBytesInLane state (length / 8) [delimitedSigmaEnd] (length % 8) 1
  let state ← stateComplementBit state (duplex.rate - 1).toNat
  let (state, lanes) ←
    stateXORPermuteExtract state sigmaBegin (length / 8) (zByteLen.toNat / 8)
  let rest ← squeezeRest zByteLen.toNat state
  some (.success, maskLastByte duplex.rate zByteLen (lanes ++ rest), { duplex with state })

def duplexing (duplex : KeccakDuplexInstance) (sigmaBegin : Bytes)
    (sigmaBeginByteLen zByteLen : UInt32) (delimitedSigmaEnd : UInt8) :
    Option (HashReturn × Bytes × KeccakDuplexInstance) :=
  let rhoMax := duplex.rate - 2
  let maxBitsInDelimitedSigmaEnd := rhoMax - sigmaBeginByteLen * 8
  if delimitedSigmaEnd = 0 then some (.fail, [], duplex)
  else if sigmaBeginByteLen * 8 > rhoMax then some (.fail, [], duplex)
  else if maxBitsInDelimitedSigmaEnd < 7 ∧
      delimitedSigmaEnd.toNat ≥ 1 <<< (maxBitsInDelimitedSigmaEnd.toNat + 1) then
    some (.fail, [], duplex)
  else if zByteLen > (duplex.rate + 7) / 8 then some (.fail, [], duplex)
  else duplexBlock duplex sigmaBegin sigmaBeginByteLen zByteLen delimitedSigmaEnd

end KeccakDuplex

/-! ### The state in bits -/

namespace KeccakF1600

def stateBits (state : KeccakState) : Vector Bool 1600 :=
  ⟨(bitsOfBytes state.toList).toArray, by simp⟩

def ofStateBits (bits : Vector Bool 1600) : KeccakState :=
  ⟨(bytesOfBits bits.toList).toArray, by simp [length_bytesOfBits]⟩

def permuteBits (bits : Vector Bool 1600) : Vector Bool 1600 :=
  stateBits (statePermute (ofStateBits bits))

variable {state : KeccakState}

theorem toList_stateBits (state : KeccakState) :
    (stateBits state).toList = bitsOfBytes state.toList := rfl

theorem ofStateBits_stateBits (state : KeccakState) : ofStateBits (stateBits state) = state := by
  apply Vector.toList_inj.mp
  simp [ofStateBits, toList_stateBits]

theorem permuteBits_stateBits (state : KeccakState) :
    permuteBits (stateBits state) = stateBits (statePermute state) := by
  rw [permuteBits, ofStateBits_stateBits]

theorem getElem_stateBits {k : ℕ} (hk : k < 1600) :
    (stateBits state)[k] = state[k / 8].toNat.testBit (k % 8) := by
  have hbit := getElem?_bitsOfBytes state.toList k
  have hbyte : k / 8 < 200 := by omega
  rw [← toList_stateBits, List.getElem?_eq_getElem (by simpa using hk),
    List.getElem?_eq_getElem (by simpa using hbyte), Option.map_some, Option.some.injEq] at hbit
  simpa using hbit

theorem stateBits_adjust (state : KeccakState) (i : ℕ) (d : UInt8) :
    stateBits (Sponge.adjust state i (· ^^^ d)) =
      Sponge.overlay (· ^^ ·) (stateBits state) (8 * i) (bitsOf 8 d.toNat) := by
  apply Vector.ext
  intro k hk
  rw [Sponge.getElem_overlay hk, getElem_stateBits hk, getElem_stateBits hk,
    Sponge.getElem_adjust (by omega)]
  by_cases hik : i = k / 8
  · have hbit : (bitsOf 8 d.toNat)[k - 8 * i]? = some (d.toNat.testBit (k % 8)) := by
      rw [getElem?_bitsOf (by omega)]
      congr 2
      omega
    rw [if_pos hik, if_pos (by omega), hbit, Option.elim_some, UInt8.toNat_xor, Nat.testBit_xor]
  · rw [if_neg hik]
    split_ifs with hle
    · rw [List.getElem?_eq_none (by simp; omega), Option.elim_none]
    · rfl

/-- The bytes of the state and their bits. -/
def bitParts : Sponge.Parts 8 (· ^^^ ·) statePermute (· ^^ ·) permuteBits where
  symbols d := bitsOf 8 d.toNat
  state := stateBits
  length_symbols _ := length_bitsOf _ _
  state_adjust := stateBits_adjust
  state_function state := (permuteBits_stateBits state).symm
  read state i := by
    have htake := bitsOfBytes_take_bytes (state.toList.drop i) 1
    rw [toList_stateBits, bitsOfBytes_drop_bytes]
    refine htake.trans ?_
    rcases lt_or_ge i 200 with hi | hi
    · rw [List.take_one_drop_eq_of_lt_length (by simpa using hi)]
      simp [hi]
    · rw [List.drop_eq_nil_of_le (by simpa using hi)]
      simp [hi]

theorem stateBits_overlay (state : KeccakState) (start : ℕ) (data : Bytes) :
    stateBits (Sponge.overlay (· ^^^ ·) state start data) =
      Sponge.overlay (· ^^ ·) (stateBits state) (8 * start) (bitsOfBytes data) :=
  bitParts.state_overlay state start data

theorem testBit_byteOfWord_shift : ∀ p < 64, ∀ j < 8, ∀ i < 8,
    (byteOfWord (1 <<< UInt64.ofNat p) j).toNat.testBit i = decide (p = 8 * j + i) := by
  decide +kernel

theorem stateBits_complementBit (state : KeccakState) {p : ℕ} (hp : p < 1600) :
    ∃ state', stateComplementBit state p = some state' ∧
      stateBits state' = Sponge.overlay (· ^^ ·) (stateBits state) p [true] := by
  have hlane : p / 64 < 25 := by omega
  refine ⟨_, by rw [stateComplementBit, dif_pos hlane], ?_⟩
  apply Vector.ext
  intro k hk
  have hbyte : byteOfWord (lanes state)[k / 8 / 8] (k / 8 % 8) = state[k / 8] := by
    rw [← getElem_ofLanes _ (by omega)]
    simp only [ofLanes_lanes]
  have hover : (Sponge.overlay (· ^^ ·) (stateBits state) p [true])[k] =
      if p = k then !(stateBits state)[k] else (stateBits state)[k] := by
    change (Sponge.adjust (stateBits state) p (· ^^ true))[k] = _
    rw [Sponge.getElem_adjust hk, Bool.xor_true]
  rw [hover, getElem_stateBits hk, getElem_stateBits hk, getElem_ofLanes _ (by omega),
    Vector.getElem_set hlane (by omega)]
  by_cases hsame : p / 64 = k / 8 / 8
  · simp only [hsame, if_true, byteOfWord_xor, hbyte, UInt8.toNat_xor, Nat.testBit_xor,
      testBit_byteOfWord_shift _ (Nat.mod_lt p (by decide)) _ (Nat.mod_lt (k / 8) (by decide)) _
        (Nat.mod_lt k (by decide))]
    by_cases hpk : p = k
    · simp only [hpk, if_true]
      rw [decide_eq_true (by omega), Bool.xor_true]
    · rw [if_neg hpk, decide_eq_false (by omega), Bool.xor_false]
  · rw [if_neg hsame, if_neg (by omega), hbyte]

end KeccakF1600

/-! ### What the sponge gives in bits -/

open KeccakF1600 in
/-- The first `n` bits of the output of the sponge over the padded bits. -/
def Keccak.digestBits (rate n : ℕ) (bits : List Bool) : List Bool :=
  (Sponge.squeeze permuteBits rate n
    ⟨(Sponge.absorb (· ^^ ·) permuteBits rate ⟨Vector.replicate 1600 false, 0⟩
      (bits ++ pad101 rate bits.length)).state, 0⟩).1

namespace KeccakDuplex

theorem stateBits_stateInitialize : stateBits stateInitialize = Vector.replicate 1600 false := by
  apply Vector.toList_inj.mp
  rw [toList_stateBits, stateInitialize, Vector.toList_replicate, bitsOfBytes_zeros,
    Vector.toList_replicate]

/-- At a rate of whole bytes these are the bits of the digest. -/
theorem bitsOfBytes_digest {rateInBytes : ℕ} (hpos : 0 < rateInBytes) (n : ℕ) (bits : List Bool) :
    bitsOfBytes (Keccak.digest rateInBytes n bits) =
      Keccak.digestBits (8 * rateInBytes) (8 * n) bits := by
  obtain ⟨padded, hpadded⟩ :
    ∃ padded, padded = bits ++ pad101 (8 * rateInBytes) bits.length := ⟨_, rfl⟩
  have hblocks : padded.length % (8 * rateInBytes) = 0 := by
    rw [hpadded, List.length_append]
    exact length_pad101_mod (by omega) _
  have hwhole : bitsOfBytes (bytesOfBits padded) = padded :=
    bitsOfBytes_bytesOfBits (Nat.mod_eq_zero_of_dvd
      ((Nat.dvd_mul_right 8 rateInBytes).trans (Nat.dvd_of_mod_eq_zero hblocks)))
  have habsorbed := bitParts.io_absorb (by decide) hpos (show Sponge.Io.index
    (⟨stateInitialize, 0⟩ : Sponge.Io UInt8 200) < rateInBytes from hpos) (bytesOfBits padded)
  have hstate := congrArg Sponge.Io.state habsorbed
  rw [show (bytesOfBits padded).flatMap bitParts.symbols = padded from hwhole] at hstate
  have hsqueezed := bitParts.io_squeeze (by decide) hpos (show Sponge.Io.index
    (⟨(absorbed rateInBytes ⟨stateInitialize, 0⟩ (bytesOfBits padded)).state, 0⟩ :
      Sponge.Io UInt8 200) ≤ rateInBytes from Nat.zero_le _) n
  have hbits := congrArg Prod.fst hsqueezed
  rw [Keccak.digest, Keccak.digestBits, ← hpadded, ← stateBits_stateInitialize]
  exact hbits.symm.trans (congrArg (fun state =>
    (Sponge.squeeze permuteBits (8 * rateInBytes) (8 * n) ⟨state, 0⟩).1) hstate)

/-! ### One call -/

/-- The input of `bits` bits, the last bits and the padding fit a block, and so does the output. -/
def Fits (rate bits : ℕ) (d : UInt8) (zByteLen : ℕ) : Prop :=
  d ≠ 0 ∧ bits + d.toNat.log2 + 2 ≤ rate ∧ zByteLen ≤ (rate + 7) / 8

instance (rate bits : ℕ) (d : UInt8) (zByteLen : ℕ) : Decidable (Fits rate bits d zByteLen) :=
  inferInstanceAs (Decidable (_ ∧ _ ∧ _))

/-- The rate leaves room for the padding, and lies within the state. -/
structure Valid (duplex : KeccakDuplexInstance) : Prop where
  rate_gt : 2 < duplex.rate.toNat
  rate_le : duplex.rate.toNat ≤ 1600

variable {duplex : KeccakDuplexInstance} {sigmaBegin : Bytes}
  {sigmaBeginByteLen zByteLen : UInt32} {d : UInt8}

/-- Of seven bits and more the last ones are never too many. -/
theorem tooManyBits_iff (hd : d ≠ 0) (m : ℕ) :
    m < 7 ∧ d.toNat ≥ 1 <<< (m + 1) ↔ m < d.toNat.log2 := by
  have hpos : d.toNat ≠ 0 := fun h => hd (UInt8.toNat_inj.mp h)
  have hlog : d.toNat.log2 < 8 := (Nat.log2_lt hpos).mpr d.toNat_lt
  have hpow : d.toNat.log2 < m + 1 ↔ d.toNat < 2 ^ (m + 1) := Nat.log2_lt hpos
  rw [Nat.one_shiftLeft]
  omega

theorem duplexing_eq (hvalid : Valid duplex) :
    duplexing duplex sigmaBegin sigmaBeginByteLen zByteLen d =
      if Fits duplex.rate.toNat (8 * sigmaBeginByteLen.toNat % 2 ^ 32) d zByteLen.toNat then
        duplexBlock duplex sigmaBegin sigmaBeginByteLen zByteLen d
      else some (.fail, [], duplex) := by
  obtain ⟨hgt, hle⟩ := hvalid
  have hrho : (duplex.rate - 2).toNat = duplex.rate.toNat - 2 :=
    UInt32.toNat_sub_of_le _ _ (UInt32.le_iff_toNat_le.mpr hgt.le)
  have hbits : (sigmaBeginByteLen * 8).toNat = 8 * sigmaBeginByteLen.toNat % 2 ^ 32 := by
    rw [UInt32.toNat_mul, Nat.mul_comm]
    rfl
  have hlong : sigmaBeginByteLen * 8 > duplex.rate - 2 ↔
      duplex.rate.toNat - 2 < 8 * sigmaBeginByteLen.toNat % 2 ^ 32 := by
    rw [gt_iff_lt, UInt32.lt_iff_toNat_lt, hrho, hbits]
  have hroom : ¬ sigmaBeginByteLen * 8 > duplex.rate - 2 →
      (duplex.rate - 2 - sigmaBeginByteLen * 8).toNat =
        duplex.rate.toNat - 2 - 8 * sigmaBeginByteLen.toNat % 2 ^ 32 := fun h => by
    rw [UInt32.toNat_sub_of_le _ _ (UInt32.not_lt.mp h), hrho, hbits]
  have hmany : ¬ sigmaBeginByteLen * 8 > duplex.rate - 2 → d ≠ 0 →
      ((duplex.rate - 2 - sigmaBeginByteLen * 8 < 7 ∧
        d.toNat ≥ 1 <<< ((duplex.rate - 2 - sigmaBeginByteLen * 8).toNat + 1)) ↔
        duplex.rate.toNat - 2 - 8 * sigmaBeginByteLen.toNat % 2 ^ 32 < d.toNat.log2) :=
    fun h hd => by
      rw [← tooManyBits_iff hd, UInt32.lt_iff_toNat_lt, hroom h]
      rfl
  have hout : zByteLen > (duplex.rate + 7) / 8 ↔ (duplex.rate.toNat + 7) / 8 < zByteLen.toNat := by
    rw [gt_iff_lt, UInt32.lt_iff_toNat_lt, UInt32.toNat_div, UInt32.toNat_add,
      Nat.mod_eq_of_lt (by simp; omega)]
    rfl
  by_cases hfits : Fits duplex.rate.toNat (8 * sigmaBeginByteLen.toNat % 2 ^ 32) d zByteLen.toNat
  · obtain ⟨hd, hinside, hz⟩ := hfits
    have hshort : ¬ sigmaBeginByteLen * 8 > duplex.rate - 2 := by
      rw [hlong]
      omega
    have hfew := (hmany hshort hd).not.mpr (by omega)
    have hheld := hout.not.mpr (by omega)
    rw [if_pos ⟨hd, hinside, hz⟩, duplexing, if_neg hd, if_neg hshort, if_neg hfew, if_neg hheld]
  · rw [if_neg hfits]
    simp only [duplexing]
    split_ifs with hd hshort hfew hheld
    · rfl
    · rfl
    · rfl
    · rfl
    · have hroomNat := hlong.not.mp hshort
      have hfewNat := (hmany hshort hd).not.mp hfew
      have hheldNat := hout.not.mp hheld
      exact absurd ⟨hd, by omega, by omega⟩ hfits

def inputBits (sigmaBegin : Bytes) (sigmaBeginByteLen : UInt32) (d : UInt8) : List Bool :=
  bitsOfBytes (sigmaBegin.take sigmaBeginByteLen.toNat) ++ bitsBelow d.toNat

theorem length_inputBits (hheld : sigmaBeginByteLen.toNat ≤ sigmaBegin.length) :
    (inputBits sigmaBegin sigmaBeginByteLen d).length =
      8 * sigmaBeginByteLen.toNat + d.toNat.log2 := by
  simp [inputBits, hheld]

/-- The part of the input beyond its last lane, the last bits and the padding, as bits over the
state. -/
theorem exists_padded (hvalid : Valid duplex) (hd : d ≠ 0) {length : ℕ} {rest : Bytes}
    (hlength : rest.length = length % 8)
    (hinside : 8 * length + d.toNat.log2 + 2 ≤ duplex.rate.toNat) :
    ∃ state, stateComplementBit (Sponge.overlay (· ^^^ ·)
        (Sponge.overlay (· ^^^ ·) duplex.state (length / 8 * 8) rest) length [d])
          (duplex.rate - 1).toNat = some state ∧
      stateBits state = Sponge.overlay (· ^^ ·) (stateBits duplex.state) (8 * (length / 8 * 8))
        (bitsOfBytes rest ++ (bitsBelow d.toNat ++
          pad101 duplex.rate.toNat (8 * length + d.toNat.log2))) := by
  obtain ⟨hgt, hle⟩ := hvalid
  have hdpos : 0 < d.toNat := Nat.pos_of_ne_zero fun h => hd (UInt8.toNat_inj.mp h)
  have hlast : (duplex.rate - 1).toNat = duplex.rate.toNat - 1 :=
    UInt32.toNat_sub_of_le _ _ (UInt32.le_iff_toNat_le.mpr (by simp; omega))
  obtain ⟨zeros, hzeros⟩ :
    ∃ n, n = duplex.rate.toNat - 2 - (8 * length + d.toNat.log2) := ⟨_, rfl⟩
  obtain ⟨state, hcomplement, hstate⟩ := stateBits_complementBit
    (Sponge.overlay (· ^^^ ·)
      (Sponge.overlay (· ^^^ ·) duplex.state (length / 8 * 8) rest) length [d])
    (show (duplex.rate - 1).toNat < 1600 by omega)
  refine ⟨state, hcomplement, ?_⟩
  have hone : bitsOfBytes [d] =
      bitsBelow d.toNat ++ ([true] ++ List.replicate (8 - d.toNat.log2 - 1) false) := by
    rw [bitsOfBytes_cons, bitsOfBytes_nil, List.append_nil, bitsOf_eq hdpos d.toNat_lt]
    rfl
  have hpad : pad101 duplex.rate.toNat (8 * length + d.toNat.log2) =
      [true] ++ (List.replicate zeros false ++ [true]) := by
    have hmod : (8 * length + d.toNat.log2) % duplex.rate.toNat = 8 * length + d.toNat.log2 :=
      Nat.mod_eq_of_lt (by omega)
    rw [pad101_eq (j := zeros) (by omega) (by omega)]
    rfl
  rw [hstate, stateBits_overlay, stateBits_overlay, hone, hpad, hlast]
  simp only [Sponge.overlay_append, Sponge.overlay_neutral Bool.xor_false]
  simp only [length_bitsOfBytes, length_bitsBelow, List.length_singleton, List.length_replicate]
  have hstart : 8 * length = 8 * (length / 8 * 8) + 8 * rest.length := by omega
  have hend : duplex.rate.toNat - 1 =
      8 * (length / 8 * 8) + 8 * rest.length + d.toNat.log2 + 1 + zeros := by omega
  rw [hstart, hend]

/-- The mask takes away what lies behind the rate. -/
theorem bitsOfBytes_maskLastByte {rate : UInt32} {z : Bytes} (hlength : z.length = zByteLen.toNat)
    (hrate : rate.toNat ≤ 1600) (hz : zByteLen.toNat ≤ (rate.toNat + 7) / 8) :
    bitsOfBytes (maskLastByte rate zByteLen z) =
      (bitsOfBytes z).take rate.toNat ++
        List.replicate (8 * zByteLen.toNat - rate.toNat) false := by
  have hbits : (zByteLen * 8).toNat = 8 * zByteLen.toNat := by
    rw [UInt32.toNat_mul, Nat.mul_comm]
    exact Nat.mod_eq_of_lt (by simp; omega)
  have hover : zByteLen * 8 > rate ↔ rate.toNat < 8 * zByteLen.toNat := by
    rw [gt_iff_lt, UInt32.lt_iff_toNat_lt, hbits]
  rw [maskLastByte]
  split_ifs with hmask
  · have hlt := hover.mp hmask
    have hlast : zByteLen.toNat - 1 = rate.toNat / 8 := by omega
    have hmod : rate.toNat % 8 < 8 := Nat.mod_lt _ (by decide)
    have hindex : rate.toNat / 8 < z.length := by omega
    have htoNat : ∀ k < 8, (UInt8.ofNat (1 <<< k) - 1).toNat = 2 ^ k - 1 := by decide
    have hbehind : z.drop (rate.toNat / 8 + 1) = [] := List.drop_eq_nil_of_le (by omega)
    rw [hlast, List.modify_eq_take_cons_drop hindex, hbehind, bitsOfBytes_append,
      bitsOfBytes_cons, bitsOfBytes_nil, List.append_nil, UInt8.toNat_and, htoNat _ hmod,
      bitsOf_and_mask hmod.le,
      KeccakHash.bitsOfBytes_take (List.getElem?_eq_getElem hindex), List.append_assoc,
      show 8 - rate.toNat % 8 = 8 * zByteLen.toNat - rate.toNat by omega]
  · have hle := hover.not.mp hmask
    rw [List.take_of_length_le (by simp; omega),
      show 8 * zByteLen.toNat - rate.toNat = 0 by omega]
    simp

/-- With its lanes in front, the block over the state is the padded input. -/
theorem stateBits_block {padded : KeccakState} {length : ℕ}
    (hlength : length = sigmaBeginByteLen.toNat) (hheld : length ≤ sigmaBegin.length)
    (hpadded : stateBits padded =
      Sponge.overlay (· ^^ ·) (stateBits duplex.state) (8 * (length / 8 * 8))
        (bitsOfBytes ((sigmaBegin.drop (length / 8 * 8)).take (length % 8)) ++
          (bitsBelow d.toNat ++ pad101 duplex.rate.toNat (8 * length + d.toNat.log2)))) :
    stateBits (Sponge.overlay (· ^^^ ·) padded 0 (sigmaBegin.take (length / 8 * 8))) =
      Sponge.overlay (· ^^ ·) (stateBits duplex.state) 0
        (inputBits sigmaBegin sigmaBeginByteLen d ++
          pad101 duplex.rate.toNat (inputBits sigmaBegin sigmaBeginByteLen d).length) := by
  have hsplit : length / 8 * 8 + length % 8 = length := Nat.div_add_mod' length 8
  have hfront : (bitsOfBytes (sigmaBegin.take (length / 8 * 8))).length =
      8 * (length / 8 * 8) := by
    simp
    omega
  have hinput : bitsOfBytes (sigmaBegin.take (length / 8 * 8)) ++
      (bitsOfBytes ((sigmaBegin.drop (length / 8 * 8)).take (length % 8)) ++
        (bitsBelow d.toNat ++ pad101 duplex.rate.toNat (8 * length + d.toNat.log2))) =
      inputBits sigmaBegin sigmaBeginByteLen d ++
        pad101 duplex.rate.toNat (inputBits sigmaBegin sigmaBeginByteLen d).length := by
    rw [length_inputBits (hlength ▸ hheld), inputBits, ← hlength]
    conv_rhs => rw [← hsplit, List.take_add, bitsOfBytes_append, hsplit]
    simp only [List.append_assoc]
  have hover := @Sponge.overlay_behind _ _ (· ^^ ·) (stateBits duplex.state) 0
    (bitsOfBytes (sigmaBegin.take (length / 8 * 8)))
    (bitsOfBytes ((sigmaBegin.drop (length / 8 * 8)).take (length % 8)) ++
      (bitsBelow d.toNat ++ pad101 duplex.rate.toNat (8 * length + d.toNat.log2)))
  rw [hfront, Nat.zero_add, hinput] at hover
  rw [stateBits_overlay, hpadded, Nat.mul_zero, hover]

/-- An accepted call takes its padded input over the state, permutes it and gives out the
beginning. -/
theorem duplexBlock_eq (hvalid : Valid duplex)
    (hheld : sigmaBeginByteLen.toNat ≤ sigmaBegin.length)
    (hfits : Fits duplex.rate.toNat (8 * sigmaBeginByteLen.toNat) d zByteLen.toNat) :
    ∃ z state, duplexBlock duplex sigmaBegin sigmaBeginByteLen zByteLen d =
        some (.success, z, { duplex with state }) ∧
      stateBits state = permuteBits (Sponge.overlay (· ^^ ·) (stateBits duplex.state) 0
        (inputBits sigmaBegin sigmaBeginByteLen d ++
          pad101 duplex.rate.toNat (inputBits sigmaBegin sigmaBeginByteLen d).length)) ∧
      bitsOfBytes z =
        (stateBits state).toList.take (min (8 * zByteLen.toNat) duplex.rate.toNat) ++
          List.replicate (8 * zByteLen.toNat - duplex.rate.toNat) false := by
  obtain ⟨hd, hinside, hz⟩ := hfits
  have hle := hvalid.rate_le
  obtain ⟨length, hlength⟩ : ∃ n, n = sigmaBeginByteLen.toNat := ⟨_, rfl⟩
  rw [← hlength] at hheld hinside
  have hlt : length < 200 := by omega
  have hsplit : length / 8 * 8 + length % 8 = length := Nat.div_add_mod' length 8
  have hrestLength :
      ((sigmaBegin.drop (length / 8 * 8)).take (length % 8)).length = length % 8 := by
    simp
    omega
  obtain ⟨padded, hcomplement, hpadded⟩ := exists_padded hvalid hd hrestLength hinside
  have hlastByte : ∀ state : KeccakState,
      stateXORBytesInLane state (length / 8) [d] (length % 8) 1 =
        some (Sponge.overlay (· ^^^ ·) state length [d]) := by
    intro state
    rw [stateXORBytesInLane, hsplit, if_pos ⟨by simp, by omega⟩]
    rfl
  obtain ⟨state, hstate⟩ : ∃ state, state = statePermute
    (Sponge.overlay (· ^^^ ·) padded 0 (sigmaBegin.take (length / 8 * 8))) := ⟨_, rfl⟩
  have hlanes : stateXORPermuteExtract padded sigmaBegin (length / 8) (zByteLen.toNat / 8) =
      some (state, state.toList.take (zByteLen.toNat / 8 * 8)) := by
    rw [stateXORPermuteExtract, stateXORLanes, if_pos ⟨by omega, by omega⟩]
    simp only [Option.bind_eq_bind, Option.bind_some, ← hstate]
    rw [stateExtractLanes, if_pos (by omega)]
    rfl
  have hout : state.toList.take (zByteLen.toNat / 8 * 8) ++
      (state.toList.drop (zByteLen.toNat / 8 * 8)).take (zByteLen.toNat % 8) =
        state.toList.take zByteLen.toNat := by
    rw [← List.take_add, Nat.div_add_mod']
  refine ⟨maskLastByte duplex.rate zByteLen (state.toList.take zByteLen.toNat), state, ?_, ?_, ?_⟩
  · simp only [duplexBlock, ← hlength, absorbRest_eq hlt.le hheld, Option.bind_eq_bind,
      Option.bind_some, hlastByte, hcomplement, hlanes,
      squeezeRest_eq (show zByteLen.toNat ≤ 200 by omega), hout]
  · rw [hstate, ← permuteBits_stateBits, stateBits_block hlength hheld hpadded]
  · rw [bitsOfBytes_maskLastByte (by simp; omega) hle hz, ← bitsOfBytes_take_bytes,
      List.take_take, toList_stateBits, Nat.min_comm]

/-! ### Any number of calls -/

structure Call where
  sigmaBegin : Bytes
  sigmaBeginByteLen : UInt32
  zByteLen : UInt32
  delimitedSigmaEnd : UInt8

namespace Call

/-- The input is as long as it is said to be, and its bits can be counted in 32 bits. -/
structure Held (call : Call) : Prop where
  length_le : call.sigmaBeginByteLen.toNat ≤ call.sigmaBegin.length
  bits_lt : 8 * call.sigmaBeginByteLen.toNat < 2 ^ 32

def Fits (call : Call) (rate : ℕ) : Prop :=
  KeccakDuplex.Fits rate (8 * call.sigmaBeginByteLen.toNat) call.delimitedSigmaEnd
    call.zByteLen.toNat

instance (call : Call) (rate : ℕ) : Decidable (call.Fits rate) :=
  inferInstanceAs (Decidable (KeccakDuplex.Fits _ _ _ _))

def bits (call : Call) : List Bool :=
  inputBits call.sigmaBegin call.sigmaBeginByteLen call.delimitedSigmaEnd

end Call

/-- The calls one after the other, with what each of them returns. -/
def duplexingAll : KeccakDuplexInstance → List Call →
    Option (List (HashReturn × Bytes) × KeccakDuplexInstance)
  | duplex, [] => some ([], duplex)
  | duplex, call :: calls => do
    let (ret, z, duplex) ← duplexing duplex call.sigmaBegin call.sigmaBeginByteLen call.zByteLen
      call.delimitedSigmaEnd
    let (results, duplex) ← duplexingAll duplex calls
    some ((ret, z) :: results, duplex)

/-- What the sponge gives after the input of each call that fits, when `past` are the padded inputs
before. -/
def sponged (rate : ℕ) : List Bool → List Call → List (HashReturn × List Bool)
  | _, [] => []
  | past, call :: calls =>
    if call.Fits rate then
      let bits := past ++ call.bits
      (.success, Keccak.digestBits rate (min (8 * call.zByteLen.toNat) rate) bits ++
          List.replicate (8 * call.zByteLen.toNat - rate) false) ::
        sponged rate (bits ++ pad101 rate bits.length) calls
    else (.fail, []) :: sponged rate past calls

/-- The state is that of the sponge after these bits, which are whole blocks. -/
def Absorbed (duplex : KeccakDuplexInstance) (past : List Bool) : Prop :=
  Sponge.absorb (· ^^ ·) permuteBits duplex.rate.toNat ⟨Vector.replicate 1600 false, 0⟩ past =
    ⟨stateBits duplex.state, 0⟩

theorem length_pad101 {x m : ℕ} (h : m + 2 ≤ x) : m + (pad101 x m).length = x := by
  have hmod : m % x = m := Nat.mod_eq_of_lt (by omega)
  rw [pad101_eq (j := x - 2 - m) (by omega) (by omega)]
  simp
  omega

/-- An accepted call goes on where the sponge is. -/
theorem duplexing_of_fits (hvalid : Valid duplex) {past : List Bool} (hpast : Absorbed duplex past)
    {call : Call} (hheld : call.Held) (hfits : call.Fits duplex.rate.toNat) :
    ∃ z state, duplexing duplex call.sigmaBegin call.sigmaBeginByteLen call.zByteLen
        call.delimitedSigmaEnd = some (.success, z, { duplex with state }) ∧
      Absorbed { duplex with state } (past ++ call.bits ++
        pad101 duplex.rate.toNat (past ++ call.bits).length) ∧
      bitsOfBytes z = Keccak.digestBits duplex.rate.toNat
          (min (8 * call.zByteLen.toNat) duplex.rate.toNat) (past ++ call.bits) ++
        List.replicate (8 * call.zByteLen.toNat - duplex.rate.toNat) false := by
  have hpos : 0 < duplex.rate.toNat := (Nat.zero_lt_succ 1).trans hvalid.rate_gt
  obtain ⟨z, state, hblock, hstate, hbits⟩ := duplexBlock_eq hvalid hheld.length_le hfits
  have hlength : call.bits.length =
      8 * call.sigmaBeginByteLen.toNat + call.delimitedSigmaEnd.toNat.log2 :=
    length_inputBits hheld.length_le
  have hinside : call.bits.length + 2 ≤ duplex.rate.toNat := by
    rw [hlength]
    exact hfits.2.1
  have hwhole : past.length % duplex.rate.toNat = 0 := by
    have hindex := congrArg Sponge.Io.index hpast
    rwa [Sponge.index_absorb hpos, Nat.zero_add] at hindex
  -- The padding of a block is that of all blocks up to it.
  have hpad : pad101 duplex.rate.toNat (past ++ call.bits).length =
      pad101 duplex.rate.toNat call.bits.length := by
    rw [pad101, pad101, List.length_append, Nat.add_mod, hwhole, Nat.zero_add, Nat.mod_mod]
  have hnext : Absorbed { duplex with state } (past ++ call.bits ++
      pad101 duplex.rate.toNat (past ++ call.bits).length) := by
    have hfill : Sponge.absorb (· ^^ ·) permuteBits duplex.rate.toNat ⟨stateBits duplex.state, 0⟩
        (call.bits ++ pad101 duplex.rate.toNat call.bits.length) = ⟨stateBits state, 0⟩ := by
      rw [hstate]
      refine Sponge.absorb_fill ?_ ?_
      · intro hnil
        have hlengths := congrArg List.length hnil
        rw [List.length_append, length_pad101 hinside] at hlengths
        exact hpos.ne' hlengths
      · rw [List.length_append, Nat.zero_add]
        exact length_pad101 hinside
    rw [Absorbed, hpad, List.append_assoc, Sponge.absorb_append, hpast]
    exact hfill
  refine ⟨z, state, ?_, hnext, ?_⟩
  · rw [duplexing_eq hvalid, Nat.mod_eq_of_lt hheld.bits_lt]
    exact (if_pos hfits).trans hblock
  · have hread : Keccak.digestBits duplex.rate.toNat
        (min (8 * call.zByteLen.toNat) duplex.rate.toNat) (past ++ call.bits) =
        (stateBits state).toList.take (min (8 * call.zByteLen.toNat) duplex.rate.toNat) := by
      rw [Keccak.digestBits, hnext, Sponge.squeeze_within (by simp), List.drop_zero]
    rw [hbits, hread]

theorem duplexing_of_not_fits (hvalid : Valid duplex) {call : Call} (hheld : call.Held)
    (hfits : ¬ call.Fits duplex.rate.toNat) :
    duplexing duplex call.sigmaBegin call.sigmaBeginByteLen call.zByteLen call.delimitedSigmaEnd =
      some (.fail, [], duplex) := by
  rw [duplexing_eq hvalid, Nat.mod_eq_of_lt hheld.bits_lt]
  exact if_neg hfits

/-- From a state of the sponge, the calls give what the sponge gives. -/
theorem duplexingAll_eq (hvalid : Valid duplex) {past : List Bool} (hpast : Absorbed duplex past)
    {calls : List Call} (hcalls : ∀ call ∈ calls, call.Held) :
    ∃ results duplex', duplexingAll duplex calls = some (results, duplex') ∧
      results.map (fun result => (result.1, bitsOfBytes result.2)) =
        sponged duplex.rate.toNat past calls := by
  induction calls generalizing duplex past with
  | nil => exact ⟨[], duplex, rfl, rfl⟩
  | cons call calls ih =>
    have hheld := hcalls call List.mem_cons_self
    have hothers : ∀ call ∈ calls, call.Held := fun call hcall =>
      hcalls call (List.mem_cons_of_mem _ hcall)
    by_cases hfits : call.Fits duplex.rate.toNat
    · obtain ⟨z, state, hduplexing, hnext, hbits⟩ := duplexing_of_fits hvalid hpast hheld hfits
      have hvalid' : Valid { duplex with state } := ⟨hvalid.rate_gt, hvalid.rate_le⟩
      obtain ⟨results, duplex', hall, hresults⟩ := ih hvalid' hnext hothers
      refine ⟨(.success, z) :: results, duplex', ?_, ?_⟩
      · simp only [duplexingAll, hduplexing, hall, Option.bind_eq_bind, Option.bind_some]
      · simp only [sponged, if_pos hfits, List.map_cons, hbits, hresults]
    · obtain ⟨results, duplex', hall, hresults⟩ := ih hvalid hpast hothers
      refine ⟨(.fail, []) :: results, duplex', ?_, ?_⟩
      · simp only [duplexingAll, duplexing_of_not_fits hvalid hheld hfits, hall,
          Option.bind_eq_bind, Option.bind_some]
      · simp only [sponged, if_neg hfits, List.map_cons, bitsOfBytes_nil, hresults]

/-- A duplex that is set up gives for any calls what the sponge gives for the padded inputs of all
calls up to each of them, and changes nothing in a call that does not fit. At a rate of whole bytes
the sponge is that of the hash. -/
theorem duplexing_calls (duplex : KeccakDuplexInstance) {rate capacity : UInt32}
    (hsum : rate + capacity = 1600) (hgt : 2 < rate) (hle : rate ≤ 1600) {calls : List Call}
    (hcalls : ∀ call ∈ calls, call.Held) :
    (∃ duplex₁ results duplex₂, duplexInitialize duplex rate capacity = (.success, duplex₁) ∧
      duplexingAll duplex₁ calls = some (results, duplex₂) ∧
      results.map (fun result => (result.1, bitsOfBytes result.2)) =
        sponged rate.toNat [] calls) ∧
    ∀ rateInBytes, rate.toNat = 8 * rateInBytes → ∀ n bits,
      Keccak.digestBits rate.toNat (8 * n) bits =
        bitsOfBytes (Keccak.digest rateInBytes n bits) := by
  have hgtNat : 2 < rate.toNat := UInt32.lt_iff_toNat_lt.mp hgt
  have hleNat : rate.toNat ≤ 1600 := UInt32.le_iff_toNat_le.mp hle
  have hrefuse : ¬(rate ≤ 2 ∨ rate > 1600) := by
    rintro (h | h)
    · exact UInt32.not_le.mpr hgt h
    · exact UInt32.not_lt.mpr hle h
  have hinitialize : duplexInitialize duplex rate capacity =
      (.success, ⟨stateInitialize, rate⟩) := by
    simp only [duplexInitialize, hsum, hrefuse, ne_eq, not_true_eq_false, if_false]
  have hfresh : Absorbed ⟨stateInitialize, rate⟩ [] := by
    rw [Absorbed, Sponge.absorb_nil, stateBits_stateInitialize]
  constructor
  · have hvalid : Valid ⟨stateInitialize, rate⟩ := ⟨hgtNat, hleNat⟩
    obtain ⟨results, duplex', hall, hresults⟩ := duplexingAll_eq hvalid hfresh hcalls
    exact ⟨_, results, duplex', hinitialize, hall, hresults⟩
  · intro rateInBytes hrate n bits
    rw [bitsOfBytes_digest (by omega), hrate]

/-- A call that ends within a byte, a refused one, and one of whole bytes. -/
theorem duplexing_calls_three :
    let calls : List Call :=
      [⟨[0x61], 1, 4, 0x05⟩, ⟨[0x62], 1, 200, 0x01⟩, ⟨[0x63, 0x64], 2, 136, 0x01⟩]
    (∃ duplex₁ results duplex₂,
      duplexInitialize ⟨stateInitialize, 0⟩ 1088 512 = (.success, duplex₁) ∧
      duplexingAll duplex₁ calls = some (results, duplex₂) ∧
      results.map (fun result => (result.1, bitsOfBytes result.2)) = sponged 1088 [] calls) ∧
    ∀ n bits, Keccak.digestBits 1088 (8 * n) bits = bitsOfBytes (Keccak.digest 136 n bits) := by
  intro calls
  have hheld : ∀ call ∈ calls, call.Held := by
    simp only [calls, List.mem_cons, List.not_mem_nil, or_false, forall_eq_or_imp, forall_eq]
    exact ⟨⟨by decide, by decide⟩, ⟨by decide, by decide⟩, ⟨by decide, by decide⟩⟩
  obtain ⟨hcalls, hdigest⟩ := duplexing_calls ⟨stateInitialize, 0⟩
    (show (1088 : UInt32) + 512 = 1600 by decide) (by decide) (by decide) hheld
  exact ⟨hcalls, hdigest 136 rfl⟩

end KeccakDuplex

end NexusPool
