import NexusPool.Hash.KeccakSqueeze
import NexusPool.Library.BitPadding

/-!
# Hashing with the Keccak sponge, as in `KeccakHash.cpp`

A message of whole bytes, with some bits more at its end, is followed by the bits of a suffix.
What does not fill a byte is kept with the suffix until the padding is made. The digest is read
off the sponge over the bits of the message, of the suffix and of the padding, and so is what is
squeezed after it.
-/

namespace NexusPool

open BitPadding KeccakF1600 KeccakSponge

structure KeccakHashInstance where
  sponge : KeccakSpongeInstance
  fixedOutputLength : ℕ
  delimitedSuffix : UInt8

namespace KeccakHash

/-! ### The functions -/

def hashInitialize (hash : KeccakHashInstance) (rate capacity hashbitlen : UInt32)
    (delimitedSuffix : UInt8) : HashReturn × KeccakHashInstance :=
  if delimitedSuffix = 0 then (.fail, hash)
  else
    let (result, sponge) := spongeInitialize hash.sponge rate capacity
    if result ≠ .success then (result, { hash with sponge })
    else
      (.success,
        { sponge
          fixedOutputLength := hashbitlen.toNat
          delimitedSuffix })

/-- The last bits and the suffix together fill a byte, or they do not. -/
def updateLastBits (turns : ℕ) (hash : KeccakHashInstance) (lastByte : UInt8) (bits : ℕ) :
    Option (HashReturn × KeccakHashInstance) :=
  let delimitedLastBytes : UInt16 :=
    lastByte.toUInt16 ||| (hash.delimitedSuffix.toUInt16 <<< UInt16.ofNat bits)
  if delimitedLastBytes &&& 0xFF00 = 0 then
    some (.success, { hash with delimitedSuffix := (delimitedLastBytes &&& 0xFF).toUInt8 })
  else do
    let (ret, sponge) ←
      spongeAbsorb turns hash.sponge [(delimitedLastBytes &&& 0xFF).toUInt8]
    some (ret,
      { hash with sponge, delimitedSuffix := ((delimitedLastBytes >>> 8) &&& 0xFF).toUInt8 })

def hashUpdate (turns : ℕ) (hash : KeccakHashInstance) (data : Bytes) (databitlen : ℕ) :
    Option (HashReturn × KeccakHashInstance) :=
  if databitlen / 8 ≤ data.length then do
    let (ret, sponge) ← spongeAbsorb turns hash.sponge (data.take (databitlen / 8))
    if databitlen % 8 = 0 then some (ret, { hash with sponge })
    else if ret = .success then
      updateLastBits turns { hash with sponge } (← data[databitlen / 8]?) (databitlen % 8)
    else some (ret, { hash with sponge })
  else none

def hashFinal (turns : ℕ) (hash : KeccakHashInstance) :
    Option (HashReturn × Bytes × KeccakHashInstance) := do
  let (ret, sponge) ← spongeAbsorbLastFewBits hash.sponge hash.delimitedSuffix
  if ret = .success then
    let (ret, hashval, sponge) ← spongeSqueeze turns sponge (hash.fixedOutputLength / 8)
    some (ret, hashval, { hash with sponge })
  else some (ret, [], { hash with sponge })

def hashSqueeze (turns : ℕ) (hash : KeccakHashInstance) (databitlen : ℕ) :
    Option (HashReturn × Bytes × KeccakHashInstance) :=
  if databitlen % 8 ≠ 0 then some (.fail, [], hash)
  else
    (spongeSqueeze turns hash.sponge (databitlen / 8)).map fun (ret, data, sponge) =>
      (ret, data, { hash with sponge })

/-- Requests of so many bytes each, one after the other. -/
def hashSqueezes (turns : ℕ) : KeccakHashInstance → List ℕ → Option (Bytes × KeccakHashInstance)
  | hash, [] => some ([], hash)
  | hash, n :: requests => do
    let (ret, data, hash) ← hashSqueeze turns hash (8 * n)
    if ret = .success then
      let (rest, hash) ← hashSqueezes turns hash requests
      some (data ++ rest, hash)
    else none

end KeccakHash

/-! ### The last bits of the message and the padding -/

namespace KeccakSponge

variable {state : KeccakState} {rateInBytes byteIOIndex : ℕ} {d : UInt8}

/-- The bytes that the last bits with their delimiter and the second bit of the padding are. -/
def lastBytes (rateInBytes byteIOIndex : ℕ) (d : UInt8) : Bytes :=
  if byteIOIndex + 1 < rateInBytes then
    [d] ++ (List.replicate (rateInBytes - byteIOIndex - 2) 0 ++ [0x80])
  else if d < 0x80 then [d ^^^ 0x80]
  else [d] ++ (List.replicate (rateInBytes - 1) 0 ++ [0x80])

theorem overlay_zeros (start n : ℕ) :
    Sponge.overlay (· ^^^ ·) state start (List.replicate n 0) = state :=
  Sponge.overlay_neutral (fun _ => UInt8.xor_zero) n

theorem overlay_singleton (start : ℕ) (d : UInt8) :
    Sponge.overlay (· ^^^ ·) state start [d] = Sponge.adjust state start (· ^^^ d) := rfl

theorem byteOfWord_topBit : ∀ j < 8, ∀ k < 8,
    byteOfWord (1 <<< UInt64.ofNat (8 * j + 7)) k = if j = k then 0x80 else 0 := by
  decide +kernel

theorem stateComplementBit_eq (hpos : 0 < rateInBytes) (hle : rateInBytes ≤ 200) :
    stateComplementBit state (rateInBytes * 8 - 1) =
      some (Sponge.overlay (· ^^^ ·) state (rateInBytes - 1) [0x80]) := by
  have hdiv : (rateInBytes * 8 - 1) / 64 = (rateInBytes - 1) / 8 := by omega
  have hmod : (rateInBytes * 8 - 1) % 64 = 8 * ((rateInBytes - 1) % 8) + 7 := by omega
  have hlane : (rateInBytes - 1) / 8 < 25 := by omega
  simp only [stateComplementBit, hdiv, hmod, dif_pos hlane, Option.some.injEq]
  apply Vector.ext
  intro k hk
  have hbyte : byteOfWord (lanes state)[k / 8] (k % 8) = state[k] := by
    rw [← getElem_ofLanes _ hk]
    simp only [ofLanes_lanes]
  rw [getElem_ofLanes _ hk, overlay_singleton, Sponge.getElem_adjust hk,
    Vector.getElem_set hlane (by omega)]
  by_cases hsame : (rateInBytes - 1) / 8 = k / 8
  · simp only [hsame, if_true, byteOfWord_xor, hbyte,
      byteOfWord_topBit _ (Nat.mod_lt _ (by decide)) _ (Nat.mod_lt k (by decide))]
    by_cases hk' : rateInBytes - 1 = k
    · simp [hk']
    · rw [if_neg (by omega), if_neg hk']
      simp
  · rw [if_neg hsame, if_neg (by omega), hbyte]

variable {sponge : KeccakSpongeInstance}

/-- Closing the sponge is absorbing the last bytes. -/
theorem spongeAbsorbLastFewBits_eq (hvalid : sponge.Valid) (hphase : sponge.squeezing = false)
    (hd : d ≠ 0) :
    spongeAbsorbLastFewBits sponge d = some (.success,
      { sponge with
        state := (absorbed (sponge.rate / 8) sponge.io
          (lastBytes (sponge.rate / 8) sponge.byteIOIndex d)).state
        byteIOIndex := 0
        squeezing := true }) := by
  have hlt := hvalid.index_lt hphase
  have hle := hvalid.rate_le
  have hbyte : sponge.byteIOIndex / 8 * 8 + sponge.byteIOIndex % 8 = sponge.byteIOIndex :=
    Nat.div_add_mod' _ 8
  have hxor : stateXORBytesInLane sponge.state (sponge.byteIOIndex / 8) [d]
      (sponge.byteIOIndex % 8) 1 =
      some (Sponge.overlay (· ^^^ ·) sponge.state sponge.byteIOIndex [d]) := by
    rw [stateXORBytesInLane, hbyte, if_pos ⟨by simp, by omega⟩]
    rfl
  have hcomplement : ∀ state : KeccakState,
      stateComplementBit state (sponge.rate / 8 * 8 - 1) =
        some (Sponge.overlay (· ^^^ ·) state (sponge.rate / 8 - 1) [0x80]) := fun state =>
    stateComplementBit_eq hvalid.rate_pos hle
  have hrest : ∀ (io : Sponge.Io UInt8 200) (start : ℕ), io.index = start →
      start < sponge.rate / 8 →
      absorbed (sponge.rate / 8) io (List.replicate (sponge.rate / 8 - start - 1) 0 ++ [0x80]) =
        ⟨statePermute (Sponge.overlay (· ^^^ ·) io.state (sponge.rate / 8 - 1) [0x80]), 0⟩ := by
    rintro io start rfl hstart
    rw [absorbed, Sponge.absorb_fill (by simp) (by simp; omega), Sponge.overlay_append,
      overlay_zeros, List.length_replicate]
    congr 4
    omega
  have hone : sponge.byteIOIndex + 1 < sponge.rate / 8 →
      absorbed (sponge.rate / 8) sponge.io [d] =
        ⟨Sponge.overlay (· ^^^ ·) sponge.state sponge.byteIOIndex [d],
          sponge.byteIOIndex + 1⟩ := fun h => Sponge.absorb_within h
  have hfill : sponge.byteIOIndex + 1 = sponge.rate / 8 → ∀ d : UInt8,
      absorbed (sponge.rate / 8) sponge.io [d] =
        ⟨statePermute (Sponge.overlay (· ^^^ ·) sponge.state sponge.byteIOIndex [d]), 0⟩ :=
    fun h d => Sponge.absorb_fill (by simp) h
  rw [spongeAbsorbLastFewBits, if_neg hd, if_neg (by simp [hphase]), hxor]
  simp only [Option.bind_eq_bind, Option.bind_some, hcomplement, lastBytes]
  by_cases hroom : sponge.byteIOIndex + 1 < sponge.rate / 8
  · have habsorbed := hrest _ (sponge.byteIOIndex + 1) (congrArg Sponge.Io.index (hone hroom)) hroom
    rw [if_neg (fun h => by omega), if_pos hroom, absorbed_append,
      show sponge.rate / 8 - sponge.byteIOIndex - 2 =
        sponge.rate / 8 - (sponge.byteIOIndex + 1) - 1 by omega, habsorbed, hone hroom]
  · have hlast : sponge.byteIOIndex + 1 = sponge.rate / 8 := by omega
    rw [if_neg hroom]
    by_cases htop : d < 0x80
    · -- Both bits of the padding are in the last byte.
      have hboth : Sponge.overlay (· ^^^ ·) (Sponge.overlay (· ^^^ ·) sponge.state
          sponge.byteIOIndex [d]) (sponge.rate / 8 - 1) [0x80] =
          Sponge.overlay (· ^^^ ·) sponge.state sponge.byteIOIndex [d ^^^ 0x80] := by
        apply Vector.ext
        intro k hk
        simp only [overlay_singleton, Sponge.getElem_adjust hk,
          show sponge.rate / 8 - 1 = sponge.byteIOIndex by omega]
        split_ifs
        · rw [UInt8.xor_assoc]
        · rfl
      rw [if_neg (fun h => UInt8.not_le.mpr htop h.1), if_pos htop, hfill hlast, hboth]
    · -- The second bit of the padding needs one more block.
      have habsorbed := hrest _ 0 (congrArg Sponge.Io.index (hfill hlast d)) hvalid.rate_pos
      rw [Nat.sub_zero] at habsorbed
      rw [if_pos ⟨UInt8.not_lt.mp htop, by omega⟩, if_neg htop, absorbed_append, habsorbed,
        hfill hlast]

/-- The padding with its zeros counted. -/
theorem pad101_eq {x m j : ℕ} (hj : j < x) (h : 2 * x - 2 - m % x = j ∨
    2 * x - 2 - m % x = j + x) : pad101 x m = true :: List.replicate j false ++ [true] := by
  have hmod : (2 * x - 2 - m % x) % x = j := by
    rcases h with h | h
    · rw [h, Nat.mod_eq_of_lt hj]
    · rw [h, Nat.add_mod_right, Nat.mod_eq_of_lt hj]
  rw [pad101, hmod]

theorem bitsOfBytes_lastBytes (hindex : byteIOIndex < rateInBytes) (hd : d ≠ 0) {m : ℕ}
    (hm : m % (8 * rateInBytes) = 8 * byteIOIndex + d.toNat.log2) :
    bitsOfBytes (lastBytes rateInBytes byteIOIndex d) =
      bitsBelow d.toNat ++ pad101 (8 * rateInBytes) m := by
  have hdlt := d.toNat_lt
  have hdpos : 0 < d.toNat := Nat.pos_of_ne_zero fun h => hd (UInt8.toNat_inj.mp h)
  have hlog : d.toNat.log2 < 8 := (Nat.log2_lt hdpos.ne').mpr hdlt
  have htop : bitsOfBytes [(0x80 : UInt8)] = List.replicate 7 false ++ [true] := by decide
  have hone : bitsOfBytes [d] =
      bitsBelow d.toNat ++ true :: List.replicate (8 - d.toNat.log2 - 1) false := by
    rw [bitsOfBytes_cons, bitsOfBytes_nil, List.append_nil, bitsOf_eq hdpos hdlt]
  unfold lastBytes
  split_ifs with hroom hseven
  · have hzeros : 8 - d.toNat.log2 - 1 + (8 * (rateInBytes - byteIOIndex - 2) + 7) =
        8 * rateInBytes - 8 * byteIOIndex - d.toNat.log2 - 2 := by omega
    rw [bitsOfBytes_append, bitsOfBytes_append, bitsOfBytes_zeros, htop, hone,
      pad101_eq (j := 8 * rateInBytes - 8 * byteIOIndex - d.toNat.log2 - 2) (by omega) (by omega),
      ← hzeros, List.replicate_add, List.replicate_add]
    simp only [List.append_assoc, List.cons_append]
  · have hxor : ∀ n < 128, 0 < n → bitsOf 8 (n ^^^ 128) =
        bitsBelow n ++ true :: (List.replicate (6 - n.log2) false ++ [true]) := by decide +kernel
    have hlt : d.toNat < 128 := UInt8.lt_iff_toNat_lt.mp hseven
    have hlogLt : d.toNat.log2 < 7 := (Nat.log2_lt hdpos.ne').mpr hlt
    rw [bitsOfBytes_cons, bitsOfBytes_nil, List.append_nil, UInt8.toNat_xor,
      pad101_eq (j := 6 - d.toNat.log2) (by omega) (by omega)]
    exact hxor _ hlt hdpos
  · have hge : 128 ≤ d.toNat := UInt8.le_iff_toNat_le.mp (UInt8.not_lt.mp hseven)
    have hlogEq : d.toNat.log2 = 7 := (Nat.log2_eq_iff hdpos.ne').mpr ⟨hge, hdlt⟩
    rw [bitsOfBytes_append, bitsOfBytes_append, bitsOfBytes_zeros, htop, hone, hlogEq,
      pad101_eq (j := 8 * (rateInBytes - 1) + 7) (by omega) (by omega), List.replicate_add]
    simp only [List.append_assoc, List.cons_append]
    rfl

end KeccakSponge

/-! ### Digests -/

/-- The first `n` bytes of the output of the sponge over the padded bits. -/
def Keccak.digest (rateInBytes n : ℕ) (bits : List Bool) : Bytes :=
  (squeezed rateInBytes n
    ⟨(absorbed rateInBytes ⟨stateInitialize, 0⟩
      (bytesOfBits (bits ++ pad101 (8 * rateInBytes) bits.length))).state, 0⟩).1

namespace KeccakHash

/-- The hash has absorbed these bytes since it was initialised. -/
structure Absorbing (rateInBytes : ℕ) (hash : KeccakHashInstance) (bytes : Bytes) : Prop where
  rate : hash.sponge.rate / 8 = rateInBytes
  valid : hash.sponge.Valid
  phase : hash.sponge.squeezing = false
  io : hash.sponge.io = absorbed rateInBytes ⟨stateInitialize, 0⟩ bytes

/-- The hash gives out the sponge over the padded bits, and has given out `n` bytes of it. -/
structure Squeezing (rateInBytes : ℕ) (hash : KeccakHashInstance) (bits : List Bool) (n : ℕ) :
    Prop where
  rate : hash.sponge.rate / 8 = rateInBytes
  valid : hash.sponge.Valid
  phase : hash.sponge.squeezing = true
  io : hash.sponge.io = (squeezed rateInBytes n
    ⟨(absorbed rateInBytes ⟨stateInitialize, 0⟩
      (bytesOfBits (bits ++ pad101 (8 * rateInBytes) bits.length))).state, 0⟩).2

variable {rateInBytes turns : ℕ} {hash : KeccakHashInstance} {bytes data : Bytes}

theorem absorbing_hashInitialize (hash : KeccakHashInstance) (hashbitlen : UInt32)
    {rate capacity : UInt32} {delimitedSuffix : UInt8} (hsum : rate + capacity = 1600)
    (hle : rate ≤ 1600)
    (hpos : 0 < rate) (hmod : rate % 8 = 0) (hsuffix : delimitedSuffix ≠ 0) :
    ∃ hash', hashInitialize hash rate capacity hashbitlen delimitedSuffix = (.success, hash') ∧
      Absorbing (rate.toNat / 8) hash' [] ∧ hash'.fixedOutputLength = hashbitlen.toNat ∧
      hash'.delimitedSuffix = delimitedSuffix := by
  have hleNat : rate.toNat ≤ 1600 := UInt32.le_iff_toNat_le.mp hle
  have hposNat : 0 < rate.toNat := UInt32.lt_iff_toNat_lt.mp hpos
  have hmodNat : rate.toNat % 8 = 0 := by simpa using congrArg UInt32.toNat hmod
  have hrefuse : ¬(rate ≤ 0 ∨ rate > 1600 ∨ rate % 8 ≠ 0) := by
    rintro (h | h | h)
    · exact UInt32.not_le.mpr hpos h
    · exact UInt32.not_lt.mpr hle h
    · exact h hmod
  refine ⟨⟨⟨stateInitialize, rate.toNat, 0, false⟩, hashbitlen.toNat, delimitedSuffix⟩,
    by simp only [hashInitialize, spongeInitialize, if_neg hsuffix, hsum, hrefuse, ne_eq,
      not_true_eq_false, if_false],
    ⟨rfl, ⟨?_, ?_, ?_, ?_⟩, rfl, rfl⟩, rfl, rfl⟩
  · simp only
    omega
  · simp only
    omega
  · exact Nat.zero_le _
  · intro _
    simp only
    omega

theorem spongeAbsorb_of_absorbing (data : Bytes) (h : Absorbing rateInBytes hash bytes)
    (hlength : data.length < 2 ^ 32 - 200) (hturns : data.length + 4 ≤ turns) :
    ∃ sponge, spongeAbsorb turns hash.sponge data = some (.success, sponge) ∧
      Absorbing rateInBytes { hash with sponge } (bytes ++ data) := by
  have hindex := h.valid.index_lt h.phase
  have hle := h.valid.rate_le
  have habsorbable : Absorbable hash.sponge data := by
    refine Or.inr ⟨?_, Or.inl (by omega)⟩
    rw [Nat.mod_eq_of_lt (by omega)]
    omega
  refine ⟨hash.sponge.withIo (absorbed (hash.sponge.rate / 8) hash.sponge.io data), ?_,
    h.rate, valid_absorbed h.valid h.phase data, h.phase, ?_⟩
  · rw [spongeAbsorb, if_neg (by simp [h.phase]),
      absorbLoop_of_absorbable h.valid h.phase habsorbable hturns]
    rfl
  · rw [absorbed_append, ← h.io, h.rate]
    rfl

theorem hashUpdate_bytes (h : Absorbing rateInBytes hash bytes)
    (hlength : data.length < 2 ^ 32 - 200) (hturns : data.length + 4 ≤ turns) :
    ∃ sponge, hashUpdate turns hash data (8 * data.length) =
        some (.success, { hash with sponge }) ∧
      Absorbing rateInBytes { hash with sponge } (bytes ++ data) := by
  obtain ⟨sponge, hsponge, habsorbing⟩ := spongeAbsorb_of_absorbing data h hlength hturns
  refine ⟨sponge, ?_, habsorbing⟩
  rw [hashUpdate, if_pos (by omega), Nat.mul_div_cancel_left _ (by decide), List.take_length,
    hsponge]
  simp only [Option.bind_eq_bind, Option.bind_some, Nat.mul_mod_right, if_true]

/-- The last bits and the suffix, as one number. -/
theorem toNat_delimitedLastBytes (delimitedSuffix : UInt8) {lastByte : UInt8} {k : ℕ} (hk : k < 8)
    (hlast : lastByte.toNat < 2 ^ k) :
    (lastByte.toUInt16 ||| (delimitedSuffix.toUInt16 <<< UInt16.ofNat k)).toNat =
      lastByte.toNat + 2 ^ k * delimitedSuffix.toNat := by
  have hsuffix := delimitedSuffix.toNat_lt
  have hpow : 2 ^ k ≤ 2 ^ 7 := Nat.pow_le_pow_right (by decide) (by omega)
  have hlt : 2 ^ k * delimitedSuffix.toNat < 2 ^ 16 :=
    calc 2 ^ k * delimitedSuffix.toNat ≤ 2 ^ 7 * delimitedSuffix.toNat :=
          Nat.mul_le_mul_right _ hpow
      _ < 2 ^ 16 := by omega
  have hshift : (delimitedSuffix.toUInt16 <<< UInt16.ofNat k).toNat =
      2 ^ k * delimitedSuffix.toNat := by
    rw [UInt16.toNat_shiftLeft, UInt16.toNat_ofNat_of_lt' (by simp [UInt16.size]; omega),
      Nat.mod_eq_of_lt (by omega : k < 16), UInt8.toNat_toUInt16, Nat.shiftLeft_eq, Nat.mul_comm,
      Nat.mod_eq_of_lt hlt]
  rw [UInt16.toNat_or, UInt8.toNat_toUInt16, hshift, Nat.or_comm,
    ← Nat.two_pow_add_eq_or_of_lt hlast, Nat.add_comm]

theorem high_byte_eq_zero_iff (w : UInt16) : w &&& 0xFF00 = 0 ↔ w.toNat < 256 := by
  have hw := w.toNat_lt
  rw [← UInt16.toNat_inj, UInt16.toNat_and]
  constructor
  · intro h
    have hhigh : (w.toNat >>> 8) &&& (0xFF00 >>> 8) = 0 := by
      rw [← Nat.shiftRight_and_distrib]
      exact congrArg (· >>> 8) h
    rw [show (0xFF00 : ℕ) >>> 8 = 2 ^ 8 - 1 by decide, Nat.and_two_pow_sub_one_eq_mod,
      Nat.shiftRight_eq_div_pow] at hhigh
    omega
  · have hlow : ∀ n < 256, n &&& 0xFF00 = 0 := by decide +kernel
    exact hlow _

theorem toNat_low_byte (w : UInt16) : ((w &&& 0xFF).toUInt8).toNat = w.toNat % 256 := by
  rw [UInt16.toNat_toUInt8, UInt16.toNat_and, show (0xFF : UInt16).toNat = 2 ^ 8 - 1 by decide,
    Nat.and_two_pow_sub_one_eq_mod]
  omega

theorem toNat_high_byte (w : UInt16) : (((w >>> 8) &&& 0xFF).toUInt8).toNat = w.toNat / 256 := by
  have hw := w.toNat_lt
  rw [toNat_low_byte, UInt16.toNat_shiftRight, Nat.shiftRight_eq_div_pow]
  simp
  omega

theorem updateLastBits_eq (h : Absorbing rateInBytes hash bytes) {lastByte : UInt8} {k : ℕ}
    (hk : k < 8) (hlast : lastByte.toNat < 2 ^ k) (hsuffix : hash.delimitedSuffix ≠ 0)
    (hturns : 5 ≤ turns) :
    ∃ hash' bytes', updateLastBits turns hash lastByte k = some (.success, hash') ∧
      Absorbing rateInBytes hash' bytes' ∧ hash'.delimitedSuffix ≠ 0 ∧
      hash'.fixedOutputLength = hash.fixedOutputLength ∧
      bitsOfBytes bytes' ++ bitsBelow hash'.delimitedSuffix.toNat =
        bitsOfBytes bytes ++ bitsOf k lastByte.toNat ++ bitsBelow hash.delimitedSuffix.toNat := by
  obtain ⟨w, hw⟩ : ∃ w, lastByte.toUInt16 |||
    (hash.delimitedSuffix.toUInt16 <<< UInt16.ofNat k) = w := ⟨_, rfl⟩
  have hsuffixPos : 0 < hash.delimitedSuffix.toNat :=
    Nat.pos_of_ne_zero fun h => hsuffix (UInt8.toNat_inj.mp h)
  have hnumber := toNat_delimitedLastBytes hash.delimitedSuffix hk hlast
  rw [hw] at hnumber
  have hbits : bitsBelow w.toNat = bitsOf k lastByte.toNat ++
      bitsBelow hash.delimitedSuffix.toNat := by
    rw [hnumber, bitsBelow_add hlast hsuffixPos]
  have hpos : 0 < w.toNat := by
    rw [hnumber]
    positivity
  rw [updateLastBits, hw]
  by_cases hbyte : w.toNat < 256
  · have hlow : ((w &&& 0xFF).toUInt8).toNat = w.toNat := by
      rw [toNat_low_byte, Nat.mod_eq_of_lt hbyte]
    refine ⟨{ hash with delimitedSuffix := (w &&& 0xFF).toUInt8 }, bytes,
      by simp only [if_pos ((high_byte_eq_zero_iff w).mpr hbyte)],
      ⟨h.rate, h.valid, h.phase, h.io⟩, ?_, rfl, ?_⟩
    · intro hzero
      have hzeroNat := congrArg UInt8.toNat hzero
      simp only at hzeroNat
      rw [hlow] at hzeroNat
      exact hpos.ne' hzeroNat
    · rw [hlow, hbits, List.append_assoc]
  · have hhigh := toNat_high_byte w
    obtain ⟨sponge, hsponge, habsorbing⟩ :=
      spongeAbsorb_of_absorbing [(w &&& 0xFF).toUInt8] h (by simp) hturns
    refine ⟨{ hash with sponge, delimitedSuffix := ((w >>> 8) &&& 0xFF).toUInt8 },
      bytes ++ [(w &&& 0xFF).toUInt8], ?_,
      ⟨habsorbing.rate, habsorbing.valid, habsorbing.phase, habsorbing.io⟩, ?_, rfl, ?_⟩
    · simp only [if_neg (fun hzero => hbyte ((high_byte_eq_zero_iff w).mp hzero)), hsponge,
        Option.bind_eq_bind, Option.bind_some]
    · intro hzero
      have hzeroNat := congrArg UInt8.toNat hzero
      simp only at hzeroNat
      rw [hhigh] at hzeroNat
      have := Nat.div_eq_zero_iff.mp hzeroNat
      omega
    · have hsplit : bitsBelow w.toNat =
          bitsOf 8 (w.toNat % 256) ++ bitsBelow (w.toNat / 256) := by
        have hjoin := bitsBelow_add (k := 8) (Nat.mod_lt w.toNat (by decide))
          (show 0 < w.toNat / 256 by omega)
        rwa [show w.toNat % 2 ^ 8 + 2 ^ 8 * (w.toNat / 256) = w.toNat by omega] at hjoin
      rw [bitsOfBytes_append, bitsOfBytes_cons, bitsOfBytes_nil, List.append_nil, toNat_low_byte,
        hhigh, List.append_assoc, ← hsplit, hbits, List.append_assoc]

theorem bitsOfBytes_take {lastByte : UInt8} {databitlen : ℕ}
    (hlast : data[databitlen / 8]? = some lastByte) :
    (bitsOfBytes data).take databitlen =
      bitsOfBytes (data.take (databitlen / 8)) ++ bitsOf (databitlen % 8) lastByte.toNat := by
  obtain ⟨hlt, hget⟩ := List.getElem?_eq_some_iff.mp hlast
  have hsplit : data = data.take (databitlen / 8) ++
      lastByte :: data.drop (databitlen / 8 + 1) := by
    rw [← hget, ← List.drop_eq_getElem_cons, List.take_append_drop]
  have hlength : (bitsOfBytes (data.take (databitlen / 8))).length = 8 * (databitlen / 8) := by
    simp
    omega
  have hlastBits : ∀ rest : List Bool, (bitsOf 8 lastByte.toNat ++ rest).take (databitlen % 8) =
      bitsOf (databitlen % 8) lastByte.toNat := by
    intro rest
    have hmod : databitlen % 8 < 8 := Nat.mod_lt _ (by decide)
    rw [List.take_append_of_le_length (by simp; omega), bitsOf, ← List.map_take, List.take_range,
      min_eq_left hmod.le, bitsOf]
  conv_lhs => rw [hsplit]
  rw [bitsOfBytes_append, bitsOfBytes_cons, List.take_append, hlength,
    List.take_of_length_le (by omega), show databitlen - 8 * (databitlen / 8) = databitlen % 8 by
      omega, hlastBits]

theorem hashUpdate_bits (h : Absorbing rateInBytes hash bytes) {databitlen : ℕ}
    (hsuffix : hash.delimitedSuffix ≠ 0) (hdata : databitlen ≤ 8 * data.length)
    (hunused : ∀ lastByte, data[databitlen / 8]? = some lastByte →
      lastByte.toNat < 2 ^ (databitlen % 8))
    (hlength : databitlen / 8 < 2 ^ 32 - 200) (hturns : databitlen / 8 + 5 ≤ turns) :
    ∃ hash' bytes', hashUpdate turns hash data databitlen = some (.success, hash') ∧
      Absorbing rateInBytes hash' bytes' ∧ hash'.delimitedSuffix ≠ 0 ∧
      hash'.fixedOutputLength = hash.fixedOutputLength ∧
      bitsOfBytes bytes' ++ bitsBelow hash'.delimitedSuffix.toNat =
        bitsOfBytes bytes ++ (bitsOfBytes data).take databitlen ++
          bitsBelow hash.delimitedSuffix.toNat := by
  have hbytes : databitlen / 8 ≤ data.length := by omega
  have htake : (data.take (databitlen / 8)).length = databitlen / 8 := by simp [hbytes]
  obtain ⟨sponge, hsponge, habsorbing⟩ := spongeAbsorb_of_absorbing
    (data.take (databitlen / 8)) h (by omega) (show _ ≤ turns by omega)
  simp only [hashUpdate, if_pos hbytes, hsponge, Option.bind_eq_bind, Option.bind_some]
  by_cases hwhole : databitlen % 8 = 0
  · have hbits : (bitsOfBytes data).take databitlen = bitsOfBytes (data.take (databitlen / 8)) := by
      rw [← bitsOfBytes_take_bytes]
      congr 1
      omega
    refine ⟨{ hash with sponge }, _, by rw [if_pos hwhole], habsorbing, hsuffix, rfl, ?_⟩
    rw [hbits, bitsOfBytes_append]
  · obtain ⟨lastByte, hlast⟩ : ∃ lastByte, data[databitlen / 8]? = some lastByte :=
      ⟨_, List.getElem?_eq_getElem (by omega)⟩
    obtain ⟨hash', bytes', hupdate, habsorbing', hsuffix', hfixed, hbits⟩ :=
      updateLastBits_eq habsorbing (Nat.mod_lt databitlen (by decide))
        (hunused lastByte hlast) hsuffix (show 5 ≤ turns by omega)
    refine ⟨hash', bytes', ?_, habsorbing', hsuffix', hfixed, ?_⟩
    · rw [if_neg hwhole, if_pos trivial, hlast, Option.bind_some, hupdate]
    · rw [hbits, bitsOfBytes_take hlast, bitsOfBytes_append]
      simp only [List.append_assoc]

theorem bitsOfBytes_padded (bytes : Bytes) {d : UInt8} (hpos : 0 < rateInBytes) (hd : d ≠ 0) :
    bitsOfBytes (bytes ++ lastBytes rateInBytes (bytes.length % rateInBytes) d) =
      bitsOfBytes bytes ++ bitsBelow d.toNat ++
        pad101 (8 * rateInBytes) (bitsOfBytes bytes ++ bitsBelow d.toNat).length := by
  have hdpos : 0 < d.toNat := Nat.pos_of_ne_zero fun h => hd (UInt8.toNat_inj.mp h)
  have hlog : d.toNat.log2 < 8 := (Nat.log2_lt hdpos.ne').mpr d.toNat_lt
  have hlt : bytes.length % rateInBytes < rateInBytes := Nat.mod_lt _ hpos
  have hmod : (bitsOfBytes bytes ++ bitsBelow d.toNat).length % (8 * rateInBytes) =
      8 * (bytes.length % rateInBytes) + d.toNat.log2 := by
    have hdivmod := Nat.div_add_mod bytes.length rateInBytes
    rw [List.length_append, length_bitsOfBytes, length_bitsBelow,
      show 8 * bytes.length + d.toNat.log2 = 8 * (bytes.length % rateInBytes) + d.toNat.log2 +
        8 * rateInBytes * (bytes.length / rateInBytes) by
        conv_lhs => rw [← hdivmod]
        ring, Nat.add_mul_mod_self_left, Nat.mod_eq_of_lt (by omega)]
  rw [bitsOfBytes_append, bitsOfBytes_lastBytes hlt hd hmod, List.append_assoc]

/-- A request takes the next bytes of the output. -/
theorem spongeSqueeze_of_squeezing {bits : List Bool} {n : ℕ}
    (h : Squeezing rateInBytes hash bits n) {m : ℕ} (hlength : m < 2 ^ 32 - 200)
    (hturns : m + 4 ≤ turns) :
    ∃ data sponge, spongeSqueeze turns hash.sponge m = some (.success, data, sponge) ∧
      Squeezing rateInBytes { hash with sponge } bits (n + m) ∧
      Keccak.digest rateInBytes n bits ++ data = Keccak.digest rateInBytes (n + m) bits := by
  have hpos := h.valid.rate_pos
  have hle := h.valid.rate_le
  have hindex := h.valid.index_le
  have hsqueezable : Squeezable hash.sponge m := by
    refine Or.inr ⟨?_, Or.inl (by omega)⟩
    rw [Nat.mod_eq_of_lt (by omega)]
    omega
  have hnext : (given hash.sponge m).2.byteIOIndex ≤ hash.sponge.rate / 8 :=
    Sponge.index_squeeze_le hpos hindex
  have hgiven : given hash.sponge m = ((squeezed rateInBytes m hash.sponge.io).1,
      hash.sponge.withIo (squeezed rateInBytes m hash.sponge.io).2) := by
    rw [given, h.rate]
  refine ⟨(given hash.sponge m).1, (given hash.sponge m).2, ?_,
    ⟨h.rate, valid_given h.valid h.phase hnext, h.phase, ?_⟩, ?_⟩
  · exact (spongeSqueeze_outcome h.valid h.phase m).1 hsqueezable turns hturns
  · rw [squeezed_add, ← h.io, hgiven]
    rfl
  · rw [Keccak.digest, Keccak.digest, squeezed_add, ← h.io, hgiven]

theorem hashSqueeze_bytes {bits : List Bool} {n : ℕ} (h : Squeezing rateInBytes hash bits n) {m : ℕ}
    (hlength : m < 2 ^ 32 - 200) (hturns : m + 4 ≤ turns) :
    ∃ data hash', hashSqueeze turns hash (8 * m) = some (.success, data, hash') ∧
      Squeezing rateInBytes hash' bits (n + m) ∧
      Keccak.digest rateInBytes n bits ++ data = Keccak.digest rateInBytes (n + m) bits := by
  obtain ⟨data, sponge, hsqueeze, hsqueezing, hdigest⟩ :=
    spongeSqueeze_of_squeezing h hlength hturns
  refine ⟨data, { hash with sponge }, ?_, hsqueezing, hdigest⟩
  rw [hashSqueeze, if_neg (by simp), Nat.mul_div_cancel_left _ (by decide), hsqueeze]
  rfl

/-- Requests in a row give what one request for all of them gives. -/
theorem hashSqueezes_eq {bits : List Bool} {n : ℕ} (h : Squeezing rateInBytes hash bits n)
    {requests : List ℕ} (hrequests : ∀ m ∈ requests, m < 2 ^ 32 - 200)
    (hturns : requests.sum + 4 ≤ turns) :
    ∃ data hash', hashSqueezes turns hash requests = some (data, hash') ∧
      Keccak.digest rateInBytes n bits ++ data =
        Keccak.digest rateInBytes (n + requests.sum) bits := by
  induction requests generalizing hash n with
  | nil => exact ⟨[], hash, rfl, by simp⟩
  | cons m requests ih =>
    rw [List.sum_cons] at hturns
    obtain ⟨data, hash₁, hsqueeze, hsqueezing, hdigest⟩ :=
      hashSqueeze_bytes h (hrequests m List.mem_cons_self) (show m + 4 ≤ turns by omega)
    obtain ⟨rest, hash₂, hsqueezes, hrest⟩ := ih hsqueezing
      (fun m' hm' => hrequests m' (List.mem_cons_of_mem _ hm')) (by omega)
    refine ⟨data ++ rest, hash₂, ?_, ?_⟩
    · simp only [hashSqueezes, hsqueeze, hsqueezes, Option.bind_eq_bind, Option.bind_some, if_true]
    · rw [← List.append_assoc, hdigest, hrest, List.sum_cons, Nat.add_assoc]

theorem hashFinal_eq (h : Absorbing rateInBytes hash bytes) (hsuffix : hash.delimitedSuffix ≠ 0)
    (hlength : hash.fixedOutputLength / 8 < 2 ^ 32 - 200)
    (hturns : hash.fixedOutputLength / 8 + 4 ≤ turns) :
    ∃ hash', hashFinal turns hash = some (.success,
        Keccak.digest rateInBytes (hash.fixedOutputLength / 8)
          (bitsOfBytes bytes ++ bitsBelow hash.delimitedSuffix.toNat), hash') ∧
      Squeezing rateInBytes hash' (bitsOfBytes bytes ++ bitsBelow hash.delimitedSuffix.toNat)
        (hash.fixedOutputLength / 8) := by
  have hpos : 0 < rateInBytes := h.rate ▸ h.valid.rate_pos
  have hindex : hash.sponge.byteIOIndex = bytes.length % rateInBytes := by
    have hio := congrArg Sponge.Io.index h.io
    rw [absorbed, Sponge.index_absorb hpos, Nat.zero_add] at hio
    exact hio
  have hstate : absorbed (hash.sponge.rate / 8) hash.sponge.io
      (lastBytes (hash.sponge.rate / 8) hash.sponge.byteIOIndex hash.delimitedSuffix) =
      absorbed rateInBytes ⟨stateInitialize, 0⟩ (bytesOfBits (bitsOfBytes bytes ++
        bitsBelow hash.delimitedSuffix.toNat ++ pad101 (8 * rateInBytes)
          (bitsOfBytes bytes ++ bitsBelow hash.delimitedSuffix.toNat).length)) := by
    rw [← bitsOfBytes_padded bytes hpos hsuffix, bytesOfBits_bitsOfBytes, absorbed_append, ← h.io,
      h.rate, hindex]
  obtain ⟨sponge, hclosed⟩ : ∃ sponge, sponge = ({ hash.sponge with
      state := (absorbed (hash.sponge.rate / 8) hash.sponge.io (lastBytes (hash.sponge.rate / 8)
        hash.sponge.byteIOIndex hash.delimitedSuffix)).state
      byteIOIndex := 0
      squeezing := true } : KeccakSpongeInstance) := ⟨_, rfl⟩
  have hrate : sponge.rate / 8 = rateInBytes := by rw [hclosed, ← h.rate]
  have hio : sponge.byteIOIndex = 0 := by rw [hclosed]
  have hphase : sponge.squeezing = true := by rw [hclosed]
  have hvalid : sponge.Valid := by
    refine ⟨hrate ▸ hpos, ?_, by omega, fun hfalse => by simp [hphase] at hfalse⟩
    rw [hrate, ← h.rate]
    exact h.valid.rate_le
  have hsqueezing : Squeezing rateInBytes { hash with sponge }
      (bitsOfBytes bytes ++ bitsBelow hash.delimitedSuffix.toNat) 0 := by
    refine ⟨hrate, hvalid, hphase, ?_⟩
    rw [← hstate, hclosed]
    rfl
  obtain ⟨data, sponge', hsqueeze, hsqueezing', hdigest⟩ :=
    spongeSqueeze_of_squeezing hsqueezing hlength hturns
  rw [Nat.zero_add] at hsqueezing' hdigest
  refine ⟨{ hash with sponge := sponge' }, ?_, hsqueezing'⟩
  rw [hashFinal, spongeAbsorbLastFewBits_eq h.valid h.phase hsuffix, ← hclosed]
  simp only [Option.bind_eq_bind, Option.bind_some, if_true, hsqueeze, ← hdigest]
  rfl

/-! ### Whole messages -/

/-- Pieces of whole bytes leave the suffix alone. -/
theorem hashUpdate_pieces {pieces : List Bytes} (h : Absorbing rateInBytes hash bytes)
    (hpieces : ∀ piece ∈ pieces, piece.length < 2 ^ 32 - 200)
    (hturns : pieces.flatten.length + 4 ≤ turns) :
    ∃ sponge, pieces.foldlM (fun hash piece =>
        (hashUpdate turns hash piece (8 * piece.length)).map (·.2)) hash =
          some { hash with sponge } ∧
      Absorbing rateInBytes { hash with sponge } (bytes ++ pieces.flatten) := by
  induction pieces generalizing hash bytes with
  | nil => exact ⟨hash.sponge, rfl, by simpa using h⟩
  | cons piece pieces ih =>
    rw [List.flatten_cons, List.length_append] at hturns
    obtain ⟨sponge, hupdate, habsorbing⟩ := hashUpdate_bytes h
      (hpieces piece List.mem_cons_self) (show _ ≤ turns by omega)
    obtain ⟨sponge', hrest, habsorbing'⟩ := ih habsorbing
      (fun piece hpiece => hpieces piece (List.mem_cons_of_mem _ hpiece)) (by omega)
    refine ⟨sponge', ?_, by simpa using habsorbing'⟩
    rw [List.foldlM_cons, hupdate]
    exact hrest

/-- The message comes in pieces of whole bytes and a last one of any number of bits, whose
unused bits are zero. The digest is that of all their bits and the suffix, and what is squeezed
after it goes on with the same output. -/
theorem hash_pieces (hash : KeccakHashInstance) {rate capacity hashbitlen : UInt32}
    {delimitedSuffix : UInt8} (hsum : rate + capacity = 1600) (hle : rate ≤ 1600)
    (hpos : 0 < rate) (hmod : rate % 8 = 0) (hsuffix : delimitedSuffix ≠ 0)
    {pieces : List Bytes} (hpieces : ∀ piece ∈ pieces, piece.length < 2 ^ 32 - 200)
    {last : Bytes} {databitlen : ℕ} (hlast : databitlen ≤ 8 * last.length)
    (hunused : ∀ lastByte, last[databitlen / 8]? = some lastByte →
      lastByte.toNat < 2 ^ (databitlen % 8))
    (hlength : databitlen / 8 < 2 ^ 32 - 200)
    {requests : List ℕ} (hrequests : ∀ n ∈ requests, n < 2 ^ 32 - 200) :
    let bits := bitsOfBytes pieces.flatten ++ (bitsOfBytes last).take databitlen ++
      bitsBelow delimitedSuffix.toNat
    let outputBytes := hashbitlen.toNat / 8
    ∃ bound, ∀ turns ≥ bound, ∃ hash₁ hash₂ hash₃ hash₄ hash₅ data,
      hashInitialize hash rate capacity hashbitlen delimitedSuffix = (.success, hash₁) ∧
      pieces.foldlM (fun hash piece =>
        (hashUpdate turns hash piece (8 * piece.length)).map (·.2)) hash₁ = some hash₂ ∧
      hashUpdate turns hash₂ last databitlen = some (.success, hash₃) ∧
      hashFinal turns hash₃ =
        some (.success, Keccak.digest (rate.toNat / 8) outputBytes bits, hash₄) ∧
      hashSqueezes turns hash₄ requests = some (data, hash₅) ∧
      Keccak.digest (rate.toNat / 8) outputBytes bits ++ data =
        Keccak.digest (rate.toNat / 8) (outputBytes + requests.sum) bits := by
  intro bits outputBytes
  obtain ⟨hash₁, hinitialize, hfresh, hfixed, hsuffix₁⟩ :=
    absorbing_hashInitialize hash hashbitlen hsum hle hpos hmod hsuffix
  refine ⟨pieces.flatten.length + databitlen / 8 + outputBytes + requests.sum + 5,
    fun turns hturns => ?_⟩
  obtain ⟨sponge, hpiecesEq, habsorbing⟩ :=
    hashUpdate_pieces hfresh hpieces (show _ ≤ turns by omega)
  obtain ⟨hash₃, bytes, hupdate, habsorbing₃, hsuffix₃, hfixed₃, hbits⟩ :=
    hashUpdate_bits habsorbing (by simpa [hsuffix₁] using hsuffix) hlast hunused
      hlength (show _ ≤ turns by omega)
  have hlengthEq : hash₃.fixedOutputLength = hashbitlen.toNat := hfixed₃.trans hfixed
  have hhashbitlen := hashbitlen.toNat_lt
  obtain ⟨hash₄, hfinal, hsqueezing⟩ :=
    hashFinal_eq habsorbing₃ hsuffix₃ (by omega) (show _ ≤ turns by omega)
  rw [hbits, hlengthEq, hsuffix₁, List.nil_append] at hfinal hsqueezing
  obtain ⟨data, hash₅, hsqueezes, hdigest⟩ :=
    hashSqueezes_eq hsqueezing hrequests (show _ ≤ turns by omega)
  exact ⟨hash₁, _, hash₃, hash₄, hash₅, data, hinitialize, hpiecesEq, hupdate, hfinal, hsqueezes,
    hdigest⟩

/-- A message of three bytes and two bits for SHA3-256, and two requests after the digest. -/
theorem hash_pieces_sha3 :
    let hash : KeccakHashInstance := ⟨⟨stateInitialize, 0, 0, false⟩, 0, 0⟩
    let bits := bitsOfBytes [0x61, 0x62, 0x63] ++ (bitsOfBytes [0x03]).take 2 ++ bitsBelow 6
    ∃ bound, ∀ turns ≥ bound, ∃ hash₁ hash₂ hash₃ hash₄ hash₅ data,
      hashInitialize hash 1088 512 256 0x06 = (.success, hash₁) ∧
      [[0x61], [0x62, 0x63]].foldlM (fun hash piece =>
        (hashUpdate turns hash piece (8 * piece.length)).map (·.2)) hash₁ = some hash₂ ∧
      hashUpdate turns hash₂ [0x03] 2 = some (.success, hash₃) ∧
      hashFinal turns hash₃ = some (.success, Keccak.digest 136 32 bits, hash₄) ∧
      hashSqueezes turns hash₄ [100, 8] = some (data, hash₅) ∧
      Keccak.digest 136 32 bits ++ data = Keccak.digest 136 140 bits :=
  hash_pieces _ (by decide) (by decide) (by decide) (by decide) (by decide) (by decide)
    (by decide) (by rintro lastByte ⟨⟩; decide) (by decide) (by decide)

/-- Bytes with last bits, a suffix among them, are never padded to the same blocks as others. -/
theorem lastBytes_injective {bytes bytes' : Bytes} {d d' : UInt8} (hpos : 0 < rateInBytes)
    (hd : d ≠ 0) (hd' : d' ≠ 0)
    (h : bytes ++ lastBytes rateInBytes (bytes.length % rateInBytes) d =
      bytes' ++ lastBytes rateInBytes (bytes'.length % rateInBytes) d') :
    bytes = bytes' ∧ d = d' := by
  have hdpos : 0 < d.toNat := Nat.pos_of_ne_zero fun h => hd (UInt8.toNat_inj.mp h)
  have hdpos' : 0 < d'.toNat := Nat.pos_of_ne_zero fun h => hd' (UInt8.toNat_inj.mp h)
  have hbits : bitsOfBytes bytes ++ bitsBelow d.toNat =
      bitsOfBytes bytes' ++ bitsBelow d'.toNat := by
    have hpadded := congrArg bitsOfBytes h
    rw [bitsOfBytes_padded bytes hpos hd, bitsOfBytes_padded bytes' hpos hd'] at hpadded
    exact pad_injective _ hpadded
  have hlog : d.toNat.log2 < 8 := (Nat.log2_lt hdpos.ne').mpr d.toNat_lt
  have hlog' : d'.toNat.log2 < 8 := (Nat.log2_lt hdpos'.ne').mpr d'.toNat_lt
  have hlength := congrArg List.length hbits
  simp only [List.length_append, length_bitsOfBytes, length_bitsBelow] at hlength
  obtain ⟨hbytes, hlast⟩ := List.append_inj hbits (by simp only [length_bitsOfBytes]; omega)
  have hsame : bitsOf 8 d.toNat = bitsOf 8 d'.toNat := by
    rw [bitsOf_eq hdpos d.toNat_lt, bitsOf_eq hdpos' d'.toNat_lt, hlast,
      show d.toNat.log2 = d'.toNat.log2 by omega]
  constructor
  · simpa using congrArg bytesOfBits hbytes
  · have hbyte := congrArg (fun bits => bytesOfBits (bits ++ [])) hsame
    rw [bytesOfBits_bitsOf _ d.toNat_lt, bytesOfBits_bitsOf _ d'.toNat_lt] at hbyte
    simpa using hbyte

/-- One byte with the suffix of SHA3. -/
theorem lastBytes_injective_self : ([1] : Bytes) = [1] ∧ (6 : UInt8) = 6 :=
  lastBytes_injective (show 0 < 136 by decide) (by decide) (by decide) rfl

end KeccakHash

end NexusPool
