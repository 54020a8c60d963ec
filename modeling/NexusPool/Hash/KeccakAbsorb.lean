import NexusPool.Hash.KeccakSponge

/-!
# What the Keccak sponge absorbs

The lanes, the blocks and the queue of `Keccak_SpongeAbsorb` take the bytes of the data in one
after the other. With the sizes of a part in 32 bits this fails in two ways for data of four
gigabytes and more, unless it starts at a block: the sum with the position overflows, and the
part is written behind the state, or nothing is left of the part, and the loop goes on forever.
-/

namespace NexusPool

open KeccakF1600

namespace KeccakSpongeInstance

/-- The state with the position in it. -/
def io (sponge : KeccakSpongeInstance) : Sponge.Io UInt8 200 := ⟨sponge.state, sponge.byteIOIndex⟩

def withIo (sponge : KeccakSpongeInstance) (io : Sponge.Io UInt8 200) : KeccakSpongeInstance :=
  { sponge with state := io.state, byteIOIndex := io.index }

@[simp] theorem io_withIo (sponge : KeccakSpongeInstance) (io : Sponge.Io UInt8 200) :
    (sponge.withIo io).io = io := rfl

@[simp] theorem withIo_withIo (sponge : KeccakSpongeInstance) (io io' : Sponge.Io UInt8 200) :
    (sponge.withIo io).withIo io' = sponge.withIo io' := rfl

@[simp] theorem withIo_io (sponge : KeccakSpongeInstance) : sponge.withIo sponge.io = sponge := rfl

@[simp] theorem rate_withIo (sponge : KeccakSpongeInstance) (io : Sponge.Io UInt8 200) :
    (sponge.withIo io).rate = sponge.rate := rfl

/-- The rate is a number of bytes that the state can hold, and the position lies in the block. -/
structure Valid (sponge : KeccakSpongeInstance) : Prop where
  rate_pos : 0 < sponge.rate / 8
  rate_le : sponge.rate / 8 ≤ 200
  index_le : sponge.byteIOIndex ≤ sponge.rate / 8
  index_lt : sponge.squeezing = false → sponge.byteIOIndex < sponge.rate / 8

end KeccakSpongeInstance

namespace KeccakSponge

/-- Byte after byte, with a permutation after each block. -/
abbrev absorbed (rateInBytes : ℕ) (io : Sponge.Io UInt8 200) (data : Bytes) : Sponge.Io UInt8 200 :=
  Sponge.absorb (· ^^^ ·) statePermute rateInBytes io data

theorem absorbed_append (rateInBytes : ℕ) (io : Sponge.Io UInt8 200) (data data' : Bytes) :
    absorbed rateInBytes io (data ++ data') =
      absorbed rateInBytes (absorbed rateInBytes io data) data' := Sponge.absorb_append

variable {state : KeccakState} {rateInBytes byteIOIndex remaining : ℕ} {data : Bytes}

/-! ### A part of a block -/

/-- The data in two pieces, the second one behind the first. -/
theorem overlay_take_add {n m : ℕ} (hn : n ≤ data.length) :
    Sponge.overlay (· ^^^ ·) state byteIOIndex (data.take (n + m)) =
      Sponge.overlay (· ^^^ ·) (Sponge.overlay (· ^^^ ·) state byteIOIndex (data.take n))
        (byteIOIndex + n) ((data.drop n).take m) := by
  rw [List.take_add, Sponge.overlay_append, List.length_take, min_eq_left hn]

theorem absorbBytes_eq (hindex : byteIOIndex ≤ 200) {part : ℕ} (hpart : part ≤ data.length) :
    absorbBytes state byteIOIndex data part =
      if byteIOIndex + part ≤ 200 then
        some (Sponge.overlay (· ^^^ ·) state byteIOIndex (data.take part), byteIOIndex + part,
          data.drop part)
      else none := by
  induction part using Nat.strong_induction_on generalizing state byteIOIndex data with
  | _ part ih =>
    rw [absorbBytes]
    by_cases hzero : part > 0
    · obtain ⟨bytesInLane, hlane⟩ : ∃ n, n = min (8 - byteIOIndex % 8) part := ⟨_, rfl⟩
      obtain ⟨rest, hrest⟩ : ∃ rest, part = bytesInLane + rest := ⟨part - bytesInLane, by omega⟩
      have hbyte : byteIOIndex / 8 * 8 + byteIOIndex % 8 = byteIOIndex :=
        Nat.div_add_mod' byteIOIndex 8
      simp only [dif_pos hzero, ← hlane, stateXORBytesInLane, hbyte]
      subst hrest
      rw [Nat.add_sub_cancel_left]
      by_cases hinside : byteIOIndex + bytesInLane ≤ 200
      · rw [if_pos ⟨by omega, hinside⟩]
        simp only [Option.bind_eq_bind, Option.bind_some]
        rw [ih rest (by omega) hinside (by simp; omega), overlay_take_add (by omega),
          List.drop_drop, Nat.add_assoc]
      · rw [if_neg (by omega), if_neg (by omega)]
        rfl
    · obtain rfl : part = 0 := by omega
      simp [hindex]

theorem absorbPartial_eq (hindex : byteIOIndex ≤ 200) {part : ℕ} (hpart : part ≤ data.length) :
    absorbPartial state byteIOIndex data part =
      if byteIOIndex + part ≤ 200 then
        some (Sponge.overlay (· ^^^ ·) state byteIOIndex (data.take part), byteIOIndex + part,
          data.drop part)
      else none := by
  unfold absorbPartial
  by_cases hlanes : byteIOIndex = 0 ∧ part ≥ 8
  · rw [if_pos hlanes]
    obtain ⟨rfl, height⟩ := hlanes
    obtain ⟨rest, hrest⟩ : ∃ rest, part = part / 8 * 8 + rest := ⟨part % 8, by omega⟩
    rw [stateXORLanes, show part - part / 8 * 8 = rest by omega]
    by_cases hinside : part / 8 * 8 ≤ 200
    · rw [if_pos ⟨by omega, hinside⟩]
      simp only [Option.bind_eq_bind, Option.bind_some]
      rw [absorbBytes_eq (by omega) (by simp; omega), ← overlay_take_add (by omega),
        List.drop_drop, Nat.add_assoc, ← hrest]
    · rw [if_neg (by omega), if_neg (by omega)]
      rfl
  · rw [if_neg hlanes]
    exact absorbBytes_eq hindex hpart

/-! ### Whole blocks -/

theorem absorbRest_eq (hle : rateInBytes ≤ 200) (hdata : rateInBytes ≤ data.length) :
    absorbRest rateInBytes state data =
      some (Sponge.overlay (· ^^^ ·) state (rateInBytes / 8 * 8)
        ((data.drop (rateInBytes / 8 * 8)).take (rateInBytes % 8))) := by
  unfold absorbRest
  split_ifs with hzero
  · rw [stateXORBytesInLane, if_pos ⟨by simp; omega, by omega⟩, Nat.add_zero]
  · simp [show rateInBytes % 8 = 0 by omega]

theorem absorbBlocks_step {turns j : ℕ} (hle : rateInBytes ≤ 200) (hj : rateInBytes ≤ j)
    (hdata : rateInBytes ≤ data.length) :
    absorbBlocks rateInBytes (turns + 1) state data j =
      absorbBlocks rateInBytes turns
        (statePermute (Sponge.overlay (· ^^^ ·) state 0 (data.take rateInBytes)))
        (data.drop rateInBytes) (j - rateInBytes) := by
  have hsplit : rateInBytes / 8 * 8 + rateInBytes % 8 = rateInBytes :=
    Nat.div_add_mod' rateInBytes 8
  have hlanes : ∀ state : KeccakState,
      stateXORPermuteExtract state data (rateInBytes / 8) 0 =
        some (statePermute (Sponge.overlay (· ^^^ ·) state 0 (data.take (rateInBytes / 8 * 8))),
          []) := by
    intro state
    simp [stateXORPermuteExtract, stateXORLanes, stateExtractLanes,
      show rateInBytes / 8 * 8 ≤ data.length by omega, show rateInBytes / 8 * 8 ≤ 200 by omega]
  have hlength : (data.take (rateInBytes / 8 * 8)).length = rateInBytes / 8 * 8 := by
    simp
    omega
  have hover := @Sponge.overlay_behind _ _ (· ^^^ ·) state 0
    (data.take (rateInBytes / 8 * 8))
    ((data.drop (rateInBytes / 8 * 8)).take (rateInBytes % 8))
  rw [hlength, Nat.zero_add, ← List.take_add, hsplit] at hover
  rw [absorbBlocks, if_pos hj, absorbRest_eq hle hdata]
  simp only [Option.bind_eq_bind, Option.bind_some, hlanes, hover]

theorem absorbBlocks_eq (state : KeccakState) (turns : ℕ) (hpos : 0 < rateInBytes)
    (hle : rateInBytes ≤ 200)
    (hturns : data.length / rateInBytes < turns) :
    ∃ state', absorbBlocks rateInBytes turns state data data.length =
        some (state', data.drop (data.length / rateInBytes * rateInBytes),
          data.length % rateInBytes) ∧
      absorbed rateInBytes ⟨state, 0⟩ (data.take (data.length / rateInBytes * rateInBytes)) =
        ⟨state', 0⟩ := by
  induction turns generalizing state data with
  | zero => exact absurd hturns (Nat.not_lt_zero _)
  | succ turns ih =>
    by_cases hj : rateInBytes ≤ data.length
    · have hlength : (data.drop rateInBytes).length = data.length - rateInBytes := by simp
      have hdiv : data.length / rateInBytes = (data.length - rateInBytes) / rateInBytes + 1 :=
        Nat.div_eq_sub_div hpos hj
      have hmod : data.length % rateInBytes = (data.length - rateInBytes) % rateInBytes :=
        Nat.mod_eq_sub_mod hj
      obtain ⟨state', hblocks, habsorbed⟩ := @ih (data.drop rateInBytes)
        (statePermute (Sponge.overlay (· ^^^ ·) state 0 (data.take rateInBytes)))
        (by rw [hlength]; omega)
      rw [hlength] at hblocks habsorbed
      refine ⟨state', ?_, ?_⟩
      · rw [absorbBlocks_step hle hj hj, hblocks, hdiv, hmod, List.drop_drop, Nat.add_one_mul,
          Nat.add_comm rateInBytes]
      · have hblock : absorbed rateInBytes ⟨state, 0⟩ (data.take rateInBytes) =
            ⟨statePermute (Sponge.overlay (· ^^^ ·) state 0 (data.take rateInBytes)), 0⟩ :=
          Sponge.absorb_fill (by
            rw [← List.length_pos_iff]
            simp
            omega) (by simp [hj])
        rw [hdiv, Nat.add_one_mul, Nat.add_comm, List.take_add, absorbed_append, hblock,
          habsorbed]
    · rw [Nat.div_eq_of_lt (by omega), Nat.mod_eq_of_lt (by omega)]
      refine ⟨state, ?_, by simp⟩
      simp [absorbBlocks, hj]

/-! ### The queue -/

/-- Neither does the sum of the part and the position overflow, nor is part of the data left
over when the block is not filled. -/
def Queued (rateInBytes byteIOIndex remaining : ℕ) : Prop :=
  remaining % 2 ^ 32 + byteIOIndex < 2 ^ 32 ∧
    (remaining < 2 ^ 32 ∨ rateInBytes ≤ remaining % 2 ^ 32 + byteIOIndex)

instance : Decidable (Queued rateInBytes byteIOIndex remaining) :=
  inferInstanceAs (Decidable (_ ∧ _))

theorem partialBlock_of_lt (hindex : byteIOIndex ≤ rateInBytes)
    (h : remaining % 2 ^ 32 + byteIOIndex < 2 ^ 32) :
    partialBlock rateInBytes byteIOIndex remaining =
      min (remaining % 2 ^ 32) (rateInBytes - byteIOIndex) := by
  rw [partialBlock, Nat.mod_eq_of_lt h]
  split_ifs <;> omega

theorem partialBlock_of_ge (hindex : byteIOIndex ≤ rateInBytes) (hle : rateInBytes ≤ 200)
    (h : 2 ^ 32 ≤ remaining % 2 ^ 32 + byteIOIndex) :
    partialBlock rateInBytes byteIOIndex remaining = remaining % 2 ^ 32 := by
  have hlt : remaining % 2 ^ 32 < 2 ^ 32 := Nat.mod_lt _ (by decide)
  rw [partialBlock, Nat.mod_eq_sub_mod h, Nat.mod_eq_of_lt (by omega), if_neg (by omega)]

theorem partialBlock_le (hindex : byteIOIndex ≤ rateInBytes) (hle : rateInBytes ≤ 200) :
    partialBlock rateInBytes byteIOIndex remaining ≤ remaining := by
  have hmod := Nat.mod_le remaining (2 ^ 32)
  rcases lt_or_ge (remaining % 2 ^ 32 + byteIOIndex) (2 ^ 32) with h | h
  · rw [partialBlock_of_lt hindex h]
    omega
  · rwa [partialBlock_of_ge hindex hle h]

section Loop

variable {sponge : KeccakSpongeInstance} {turns dataByteLen i : ℕ}

theorem absorbLoop_done (h : dataByteLen ≤ i) :
    absorbLoop dataByteLen (turns + 1) sponge data i = some sponge := by
  rw [absorbLoop, if_neg (by omega)]

theorem absorbLoop_fast (hvalid : sponge.Valid) (hindex : sponge.byteIOIndex = 0)
    (hlength : dataByteLen = i + data.length) (hblock : sponge.rate / 8 ≤ data.length)
    (hturns : data.length ≤ turns) :
    absorbLoop dataByteLen (turns + 1) sponge data i =
      absorbLoop dataByteLen turns
        (sponge.withIo (absorbed (sponge.rate / 8) sponge.io
          (data.take (data.length / (sponge.rate / 8) * (sponge.rate / 8)))))
        (data.drop (data.length / (sponge.rate / 8) * (sponge.rate / 8)))
        (i + data.length / (sponge.rate / 8) * (sponge.rate / 8)) := by
  have hpos := hvalid.rate_pos
  obtain ⟨state', hblocks, habsorbed⟩ := absorbBlocks_eq sponge.state (turns + 1) hpos
    hvalid.rate_le (lt_of_le_of_lt (Nat.div_le_self _ _) (Nat.lt_succ_of_le hturns))
  have hdivmod := Nat.div_add_mod' data.length (sponge.rate / 8)
  rw [absorbLoop, if_pos (by omega), if_pos ⟨hindex, by omega⟩, hlength, Nat.add_sub_cancel_left,
    hblocks]
  have hio : sponge.io = ⟨sponge.state, 0⟩ := by rw [KeccakSpongeInstance.io, hindex]
  rw [hio, habsorbed]
  simp only [Option.bind_eq_bind, Option.bind_some, KeccakSpongeInstance.withIo, hindex]
  congr 1
  omega

theorem absorbLoop_normal (hvalid : sponge.Valid) (hphase : sponge.squeezing = false)
    (hlength : dataByteLen = i + data.length) (hrest : data ≠ [])
    (hfast : ¬(sponge.byteIOIndex = 0 ∧ sponge.rate / 8 ≤ data.length)) {part : ℕ}
    (hpart : partialBlock (sponge.rate / 8) sponge.byteIOIndex data.length = part)
    (hinside : sponge.byteIOIndex + part ≤ sponge.rate / 8) :
    absorbLoop dataByteLen (turns + 1) sponge data i =
      absorbLoop dataByteLen turns
        (sponge.withIo (absorbed (sponge.rate / 8) sponge.io (data.take part))) (data.drop part)
        (i + part) := by
  have hle := hvalid.rate_le
  have hlt := hvalid.index_lt hphase
  have hpartLe : part ≤ data.length := hpart ▸ partialBlock_le hvalid.index_le hle
  have hlengthPos : 0 < data.length := List.length_pos_iff.mpr hrest
  have htake : (data.take part).length = part := by simp [hpartLe]
  rw [absorbLoop, if_pos (by omega), if_neg (by omega), hlength, Nat.add_sub_cancel_left, hpart]
  dsimp only
  rw [absorbPartial_eq (by omega) hpartLe, if_pos (by omega)]
  simp only [Option.bind_eq_bind, Option.bind_some]
  by_cases hfull : sponge.byteIOIndex + part = sponge.rate / 8
  · have habsorbed : absorbed (sponge.rate / 8) sponge.io (data.take part) =
        ⟨statePermute (Sponge.overlay (· ^^^ ·) sponge.state sponge.byteIOIndex
          (data.take part)), 0⟩ :=
      Sponge.absorb_fill (by
        rw [← List.length_pos_iff]
        omega) (by rw [htake]; exact hfull)
    rw [if_pos hfull, habsorbed]
    rfl
  · have habsorbed : absorbed (sponge.rate / 8) sponge.io (data.take part) =
        ⟨Sponge.overlay (· ^^^ ·) sponge.state sponge.byteIOIndex (data.take part),
          sponge.byteIOIndex + part⟩ := by
      have hwithin := @Sponge.absorb_within _ _ (· ^^^ ·) statePermute (sponge.rate / 8) sponge.io
        (data.take part) (by rw [htake]; exact lt_of_le_of_ne hinside hfull)
      rwa [htake] at hwithin
    rw [if_neg hfull, habsorbed]
    rfl

theorem absorbLoop_short (hvalid : sponge.Valid) (hphase : sponge.squeezing = false)
    (hindex : sponge.byteIOIndex = 0) (hlength : dataByteLen = i + data.length)
    (hshort : data.length < sponge.rate / 8) :
    absorbLoop dataByteLen (turns + 2) sponge data i =
      some (sponge.withIo (absorbed (sponge.rate / 8) sponge.io data)) := by
  rcases eq_or_ne data [] with rfl | hrest
  · exact absorbLoop_done (by simpa using hlength.le)
  · have hpart : partialBlock (sponge.rate / 8) sponge.byteIOIndex data.length = data.length := by
      have hle := hvalid.rate_le
      rw [partialBlock_of_lt hvalid.index_le (by omega)]
      omega
    rw [absorbLoop_normal hvalid hphase hlength hrest (by omega) hpart (by omega),
      List.take_length, List.drop_length]
    exact absorbLoop_done hlength.le

theorem index_absorbed_lt (hvalid : sponge.Valid) (hphase : sponge.squeezing = false)
    (data : Bytes) : (absorbed (sponge.rate / 8) sponge.io data).index < sponge.rate / 8 :=
  Sponge.index_absorb_lt hvalid.rate_pos (hvalid.index_lt hphase)

theorem valid_absorbed (hvalid : sponge.Valid) (hphase : sponge.squeezing = false)
    (data : Bytes) : (sponge.withIo (absorbed (sponge.rate / 8) sponge.io data)).Valid where
  rate_pos := hvalid.rate_pos
  rate_le := hvalid.rate_le
  index_le := (index_absorbed_lt hvalid hphase data).le
  index_lt _ := index_absorbed_lt hvalid hphase data

theorem absorbed_take_drop (n : ℕ) (io : Sponge.Io UInt8 200) :
    absorbed rateInBytes (absorbed rateInBytes io (data.take n)) (data.drop n) =
      absorbed rateInBytes io data := by
  rw [← absorbed_append, List.take_append_drop]

theorem absorbLoop_of_index_eq_zero (hvalid : sponge.Valid) (hphase : sponge.squeezing = false)
    (hindex : sponge.byteIOIndex = 0) (hlength : dataByteLen = i + data.length)
    (hturns : data.length + 3 ≤ turns) :
    absorbLoop dataByteLen turns sponge data i =
      some (sponge.withIo (absorbed (sponge.rate / 8) sponge.io data)) := by
  obtain ⟨turns, rfl⟩ : ∃ n, turns = n + 3 := ⟨turns - 3, by omega⟩
  rcases lt_or_ge data.length (sponge.rate / 8) with hshort | hblock
  · exact absorbLoop_short hvalid hphase hindex hlength hshort
  · have hpos := hvalid.rate_pos
    obtain ⟨blocks, hblocks⟩ : ∃ n, n = data.length / (sponge.rate / 8) * (sponge.rate / 8) :=
      ⟨_, rfl⟩
    have hdivmod := Nat.div_add_mod' data.length (sponge.rate / 8)
    have hmod : data.length % (sponge.rate / 8) < sponge.rate / 8 := Nat.mod_lt _ hpos
    obtain ⟨state', -, habsorbed⟩ :=
      absorbBlocks_eq sponge.state _ hpos hvalid.rate_le (Nat.lt_succ_self _)
    have hzero : (absorbed (sponge.rate / 8) sponge.io (data.take blocks)).index = 0 := by
      rw [KeccakSpongeInstance.io, hindex, hblocks, habsorbed]
    rw [absorbLoop_fast hvalid hindex hlength hblock (by omega), ← hblocks,
      absorbLoop_short (valid_absorbed hvalid hphase _) hphase hzero (by simp; omega)
        (by simp; omega)]
    simp only [KeccakSpongeInstance.io_withIo, KeccakSpongeInstance.withIo_withIo,
      KeccakSpongeInstance.rate_withIo, absorbed_take_drop]

/-- Once nothing is left of the part, no turn changes anything. -/
theorem absorbLoop_stuck (hvalid : sponge.Valid) (hphase : sponge.squeezing = false)
    (hindex : sponge.byteIOIndex ≠ 0) (hlength : dataByteLen = i + data.length)
    (hrest : data ≠ []) (hzero : data.length % 2 ^ 32 = 0) :
    absorbLoop dataByteLen turns sponge data i = none := by
  have hlt := hvalid.index_lt hphase
  have hle := hvalid.rate_le
  have hpart : partialBlock (sponge.rate / 8) sponge.byteIOIndex data.length = 0 := by
    rw [partialBlock_of_lt hvalid.index_le (by omega), hzero, Nat.zero_min]
  induction turns with
  | zero => rfl
  | succ turns ih =>
    rw [absorbLoop_normal hvalid hphase hlength hrest (fun h => hindex h.1) hpart hlt.le]
    exact ih

end Loop

/-- When the sponge takes the data: it starts at a block, or the part of it that is taken first
is computed right. -/
def Absorbable (sponge : KeccakSpongeInstance) (data : Bytes) : Prop :=
  sponge.byteIOIndex = 0 ∨ Queued (sponge.rate / 8) sponge.byteIOIndex data.length

section Outcome

variable {sponge : KeccakSpongeInstance} {turns : ℕ}

theorem absorbLoop_of_absorbable (hvalid : sponge.Valid) (hphase : sponge.squeezing = false)
    (h : Absorbable sponge data) (hturns : data.length + 4 ≤ turns) :
    absorbLoop data.length turns sponge data 0 =
      some (sponge.withIo (absorbed (sponge.rate / 8) sponge.io data)) := by
  rcases h with hindex | ⟨hsum, hqueued⟩
  · exact absorbLoop_of_index_eq_zero hvalid hphase hindex (by simp) (by omega)
  · obtain ⟨turns, rfl⟩ : ∃ n, turns = n + 4 := ⟨turns - 4, by omega⟩
    rcases eq_or_ne sponge.byteIOIndex 0 with hindex | hindex
    · exact absorbLoop_of_index_eq_zero hvalid hphase hindex (by simp) (by omega)
    rcases eq_or_ne data [] with rfl | hrest
    · exact absorbLoop_done (by simp)
    have hlt := hvalid.index_lt hphase
    have hpart := partialBlock_of_lt hvalid.index_le hsum
    obtain ⟨part, hpartEq⟩ : ∃ n, n = min (data.length % 2 ^ 32)
      (sponge.rate / 8 - sponge.byteIOIndex) := ⟨_, rfl⟩
    rw [← hpartEq] at hpart
    have hmod := Nat.mod_le data.length (2 ^ 32)
    rw [absorbLoop_normal hvalid hphase (by simp) hrest (fun h => hindex h.1) hpart (by omega)]
    by_cases hfull : sponge.byteIOIndex + part = sponge.rate / 8
    · -- The block is filled, and the rest starts at a block.
      have hzero : (absorbed (sponge.rate / 8) sponge.io (data.take part)).index = 0 := by
        have hfill : absorbed (sponge.rate / 8) sponge.io (data.take part) =
            ⟨statePermute (Sponge.overlay (· ^^^ ·) sponge.state sponge.byteIOIndex
              (data.take part)), 0⟩ :=
          Sponge.absorb_fill (by
            rw [← List.length_pos_iff, List.length_take]
            omega) (by
            rw [List.length_take, min_eq_left (by omega)]
            exact hfull)
        rw [hfill]
      rw [absorbLoop_of_index_eq_zero (valid_absorbed hvalid hphase _) hphase hzero (by simp; omega)
        (by simp; omega)]
      simp only [KeccakSpongeInstance.io_withIo, KeccakSpongeInstance.withIo_withIo,
        KeccakSpongeInstance.rate_withIo, absorbed_take_drop]
    · obtain rfl : part = data.length := by
        rcases hqueued with hsmall | hlarge
        · rw [Nat.mod_eq_of_lt hsmall] at hpartEq
          omega
        · omega
      rw [absorbLoop_done (by simp), List.take_length]

theorem absorbLoop_of_not_absorbable (hvalid : sponge.Valid) (hphase : sponge.squeezing = false)
    (h : ¬Absorbable sponge data) : absorbLoop data.length turns sponge data 0 = none := by
  obtain ⟨hindex, hqueued⟩ := not_or.mp h
  have hlt := hvalid.index_lt hphase
  have hle := hvalid.rate_le
  have hrest : data ≠ [] := by
    rintro rfl
    exact hqueued ⟨by simp; omega, Or.inl (by simp)⟩
  have hlengthPos : 0 < data.length := List.length_pos_iff.mpr hrest
  cases turns with
  | zero => rfl
  | succ turns =>
    rcases lt_or_ge (data.length % 2 ^ 32 + sponge.byteIOIndex) (2 ^ 32) with hsum | hsum
    · -- The part ends before the block does, and a multiple of 2 ^ 32 bytes is left.
      obtain ⟨hlarge, hshort⟩ := not_or.mp fun h => hqueued ⟨hsum, h⟩
      have hpart := partialBlock_of_lt hvalid.index_le hsum
      rw [min_eq_left (by omega)] at hpart
      have hdivmod := Nat.div_add_mod' data.length (2 ^ 32)
      rw [absorbLoop_normal hvalid hphase (by simp) hrest (fun h => hindex h.1) hpart (by omega)]
      have hwithin := @Sponge.absorb_within _ _ (· ^^^ ·) statePermute (sponge.rate / 8) sponge.io
        (data.take (data.length % 2 ^ 32)) (by
          rw [List.length_take]
          simp only [KeccakSpongeInstance.io]
          omega)
      refine absorbLoop_stuck (valid_absorbed hvalid hphase _) hphase ?_ (by simp; omega)
        (by rw [← List.length_pos_iff]; simp; omega) (by simp; omega)
      change (absorbed _ _ _).index ≠ 0
      rw [absorbed, hwithin]
      simp only [KeccakSpongeInstance.io]
      omega
    · -- The sum overflows, and the part is written behind the state.
      have hpart := partialBlock_of_ge hvalid.index_le hle hsum
      have hmod := Nat.mod_le data.length (2 ^ 32)
      rw [absorbLoop, if_pos (by omega), if_neg (fun h => hindex h.1), Nat.sub_zero, hpart]
      dsimp only
      rw [absorbPartial_eq (by omega) hmod, if_neg (by omega)]
      rfl

/-- A sponge that takes the data absorbs it byte after byte. The loop of any other one leaves the
state or does not end. -/
theorem spongeAbsorb_outcome (hvalid : sponge.Valid) (hphase : sponge.squeezing = false)
    (data : Bytes) :
    (Absorbable sponge data → ∀ turns ≥ data.length + 4,
      spongeAbsorb turns sponge data =
        some (.success, sponge.withIo (absorbed (sponge.rate / 8) sponge.io data))) ∧
    (¬Absorbable sponge data → ∀ turns, spongeAbsorb turns sponge data = none) := by
  have hloop : ∀ turns, spongeAbsorb turns sponge data =
      (absorbLoop data.length turns sponge data 0).map (.success, ·) := by
    intro turns
    rw [spongeAbsorb, if_neg (by simp [hphase])]
  constructor
  · intro h turns hturns
    rw [hloop, absorbLoop_of_absorbable hvalid hphase h hturns]
    rfl
  · intro h turns
    rw [hloop, absorbLoop_of_not_absorbable hvalid hphase h]
    rfl

/-- A sponge of 136 bytes with three bytes in its block. -/
theorem spongeAbsorb_outcome_short :
    let sponge : KeccakSpongeInstance := ⟨stateInitialize, 1088, 3, false⟩
    (Absorbable sponge [1, 2] → ∀ turns ≥ 2 + 4, spongeAbsorb turns sponge [1, 2] =
      some (.success, sponge.withIo (absorbed 136 sponge.io [1, 2]))) ∧
    (¬Absorbable sponge [1, 2] → ∀ turns, spongeAbsorb turns sponge [1, 2] = none) :=
  spongeAbsorb_outcome ⟨by decide, by decide, by decide, fun _ => by decide⟩ rfl [1, 2]

end Outcome

end KeccakSponge

end NexusPool
