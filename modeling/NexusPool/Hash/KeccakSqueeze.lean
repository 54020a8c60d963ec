import NexusPool.Hash.KeccakAbsorb

/-!
# What the Keccak sponge gives out

The blocks and the queue of `Keccak_SpongeSqueeze` read the bytes off the state one after the
other, with a permutation after each block. The sizes in 32 bits fail here as they do for the
data that is absorbed, also for a request that starts at a block.
-/

namespace NexusPool

open KeccakF1600

namespace KeccakSponge

/-- Byte after byte, with a permutation before each block but the first. -/
abbrev squeezed (rateInBytes n : ℕ) (io : Sponge.Io UInt8 200) : Bytes × Sponge.Io UInt8 200 :=
  Sponge.squeeze statePermute rateInBytes n io

theorem squeezed_add (rateInBytes n m : ℕ) (io : Sponge.Io UInt8 200) :
    squeezed rateInBytes (n + m) io =
      ((squeezed rateInBytes n io).1 ++ (squeezed rateInBytes m (squeezed rateInBytes n io).2).1,
        (squeezed rateInBytes m (squeezed rateInBytes n io).2).2) := Sponge.squeeze_add

variable {state : KeccakState} {rateInBytes byteIOIndex : ℕ}

/-! ### A part of a block -/

theorem squeezeBytes_eq (hindex : byteIOIndex ≤ 200) (part : ℕ) :
    squeezeBytes state byteIOIndex part =
      if byteIOIndex + part ≤ 200 then
        some ((state.toList.drop byteIOIndex).take part, byteIOIndex + part)
      else none := by
  induction part using Nat.strong_induction_on generalizing byteIOIndex with
  | _ part ih =>
    rw [squeezeBytes]
    by_cases hzero : part > 0
    · obtain ⟨bytesInLane, hlane⟩ : ∃ n, n = min (8 - byteIOIndex % 8) part := ⟨_, rfl⟩
      obtain ⟨rest, hrest⟩ : ∃ rest, part = bytesInLane + rest := ⟨part - bytesInLane, by omega⟩
      have hbyte : byteIOIndex / 8 * 8 + byteIOIndex % 8 = byteIOIndex :=
        Nat.div_add_mod' byteIOIndex 8
      simp only [dif_pos hzero, ← hlane, stateExtractBytesInLane, hbyte]
      subst hrest
      rw [Nat.add_sub_cancel_left]
      by_cases hinside : byteIOIndex + bytesInLane ≤ 200
      · rw [if_pos hinside]
        simp only [Option.bind_eq_bind, Option.bind_some]
        rw [ih rest (by omega) hinside, Nat.add_assoc, List.take_add, List.drop_drop]
        split_ifs <;> rfl
      · rw [if_neg hinside, if_neg (by omega)]
        rfl
    · obtain rfl : part = 0 := by omega
      simp [hindex]

theorem squeezePartial_eq (hindex : byteIOIndex ≤ 200) (part : ℕ) :
    squeezePartial state byteIOIndex part =
      if byteIOIndex + part ≤ 200 then
        some ((state.toList.drop byteIOIndex).take part, byteIOIndex + part)
      else none := by
  unfold squeezePartial
  by_cases hlanes : byteIOIndex = 0 ∧ part ≥ 8
  · rw [if_pos hlanes]
    obtain ⟨rfl, height⟩ := hlanes
    obtain ⟨rest, hrest⟩ : ∃ rest, part = part / 8 * 8 + rest := ⟨part % 8, by omega⟩
    rw [stateExtractLanes, show part - part / 8 * 8 = rest by omega]
    by_cases hinside : part / 8 * 8 ≤ 200
    · rw [if_pos hinside]
      simp only [Option.bind_eq_bind, Option.bind_some]
      rw [squeezeBytes_eq (by omega), Nat.add_assoc, ← hrest]
      split_ifs
      · simp only [Option.bind_some, Nat.zero_add, List.drop_zero, Option.some.injEq, Prod.mk.injEq,
          and_true]
        rw [← List.take_add, ← hrest]
      · rfl
    · rw [if_neg hinside, if_neg (by omega)]
      rfl
  · rw [if_neg hlanes]
    exact squeezeBytes_eq hindex part

/-! ### Whole blocks -/

theorem squeezed_block (hpos : 0 < rateInBytes) (state : KeccakState) :
    squeezed rateInBytes rateInBytes ⟨state, rateInBytes⟩ =
      ((statePermute state).toList.take rateInBytes, ⟨statePermute state, rateInBytes⟩) := by
  rw [squeezed, Sponge.squeeze_full hpos hpos rfl, Sponge.squeeze_within (by simp)]
  simp

theorem squeezeRest_eq (hle : rateInBytes ≤ 200) :
    squeezeRest rateInBytes state =
      some ((state.toList.drop (rateInBytes / 8 * 8)).take (rateInBytes % 8)) := by
  unfold squeezeRest
  split_ifs with hzero
  · rw [stateExtractBytesInLane, if_pos (by omega), Nat.add_zero]
  · simp [show rateInBytes % 8 = 0 by omega]

theorem squeezeBlocks_step {turns j : ℕ} (hle : rateInBytes ≤ 200) (hj : rateInBytes ≤ j) :
    squeezeBlocks rateInBytes (turns + 1) state j =
      (squeezeBlocks rateInBytes turns (statePermute state) (j - rateInBytes)).map
        fun r => ((statePermute state).toList.take rateInBytes ++ r.1, r.2) := by
  have hsplit : rateInBytes / 8 * 8 + rateInBytes % 8 = rateInBytes :=
    Nat.div_add_mod' rateInBytes 8
  have hlanes : stateXORPermuteExtract state [] 0 (rateInBytes / 8) =
      some (statePermute state, (statePermute state).toList.take (rateInBytes / 8 * 8)) := by
    simp [stateXORPermuteExtract, stateXORLanes, stateExtractLanes,
      show rateInBytes / 8 * 8 ≤ 200 by omega]
  have hblock : ∀ bytes : Bytes, bytes.take (rateInBytes / 8 * 8) ++
      (bytes.drop (rateInBytes / 8 * 8)).take (rateInBytes % 8) = bytes.take rateInBytes := by
    intro bytes
    rw [← List.take_add, hsplit]
  rw [squeezeBlocks, if_pos hj, hlanes]
  simp only [Option.bind_eq_bind, Option.bind_some, squeezeRest_eq hle, hblock]
  cases squeezeBlocks rateInBytes turns (statePermute state) (j - rateInBytes) <;> rfl

theorem squeezeBlocks_eq (state : KeccakState) (turns : ℕ) {j : ℕ} (hpos : 0 < rateInBytes)
    (hle : rateInBytes ≤ 200)
    (hturns : j / rateInBytes < turns) :
    ∃ bytes state', squeezeBlocks rateInBytes turns state j =
        some (bytes, state', j % rateInBytes) ∧
      squeezed rateInBytes (j / rateInBytes * rateInBytes) ⟨state, rateInBytes⟩ =
        (bytes, ⟨state', rateInBytes⟩) := by
  induction turns generalizing state j with
  | zero => exact absurd hturns (Nat.not_lt_zero _)
  | succ turns ih =>
    by_cases hj : rateInBytes ≤ j
    · have hdiv : j / rateInBytes = (j - rateInBytes) / rateInBytes + 1 :=
        Nat.div_eq_sub_div hpos hj
      obtain ⟨bytes, state', hblocks, hsqueezed⟩ :=
        @ih (statePermute state) (j - rateInBytes) (by omega)
      refine ⟨(statePermute state).toList.take rateInBytes ++ bytes, state', ?_, ?_⟩
      · rw [squeezeBlocks_step hle hj, hblocks, Nat.mod_eq_sub_mod hj]
        rfl
      · rw [hdiv, Nat.add_one_mul, Nat.add_comm, squeezed_add, squeezed_block hpos, hsqueezed]
    · rw [Nat.div_eq_of_lt (by omega), Nat.mod_eq_of_lt (by omega)]
      exact ⟨[], state, by simp [squeezeBlocks, hj], by simp⟩

/-! ### The queue -/

section Loop

variable {sponge : KeccakSpongeInstance} {turns dataByteLen i : ℕ}

def given (sponge : KeccakSpongeInstance) (n : ℕ) : Bytes × KeccakSpongeInstance :=
  ((squeezed (sponge.rate / 8) n sponge.io).1,
    sponge.withIo (squeezed (sponge.rate / 8) n sponge.io).2)

@[simp] theorem rate_given (n : ℕ) : (given sponge n).2.rate = sponge.rate := rfl

@[simp] theorem squeezing_given (n : ℕ) : (given sponge n).2.squeezing = sponge.squeezing := rfl

theorem given_add (n m : ℕ) :
    given sponge (n + m) =
      ((given sponge n).1 ++ (given (given sponge n).2 m).1, (given (given sponge n).2 m).2) := by
  simp only [given, squeezed_add, KeccakSpongeInstance.io_withIo,
    KeccakSpongeInstance.withIo_withIo, KeccakSpongeInstance.rate_withIo]

theorem squeezeLoop_done (h : dataByteLen ≤ i) :
    squeezeLoop dataByteLen (turns + 1) sponge i = some (given sponge 0) := by
  rw [squeezeLoop, if_neg (by omega)]
  rfl

theorem squeezeLoop_fast (hvalid : sponge.Valid) (hindex : sponge.byteIOIndex = sponge.rate / 8)
    {remaining : ℕ} (hlength : dataByteLen = i + remaining)
    (hblock : sponge.rate / 8 ≤ remaining) (hturns : remaining ≤ turns) {blocks : ℕ}
    (hblocks : remaining / (sponge.rate / 8) * (sponge.rate / 8) = blocks) :
    squeezeLoop dataByteLen (turns + 1) sponge i =
      (squeezeLoop dataByteLen turns (given sponge blocks).2 (i + blocks)).map
        fun r => ((given sponge blocks).1 ++ r.1, r.2) := by
  have hpos := hvalid.rate_pos
  obtain ⟨bytes, state', hlane, hsqueezed⟩ := squeezeBlocks_eq sponge.state (turns + 1) hpos
    hvalid.rate_le (lt_of_le_of_lt (Nat.div_le_self remaining _) (Nat.lt_succ_of_le hturns))
  have hdivmod := Nat.div_add_mod' remaining (sponge.rate / 8)
  have hgiven : given sponge blocks = (bytes, { sponge with state := state' }) := by
    rw [given, KeccakSpongeInstance.io, hindex, ← hblocks, hsqueezed, KeccakSpongeInstance.withIo,
      ← hindex]
  rw [squeezeLoop, if_pos (by omega), if_pos ⟨hindex, by omega⟩, hlength, Nat.add_sub_cancel_left,
    hlane, hgiven]
  simp only [Option.bind_eq_bind, Option.bind_some]
  rw [show i + remaining - remaining % (sponge.rate / 8) = i + blocks by omega]
  cases squeezeLoop (i + remaining) turns { sponge with state := state' } (i + blocks) <;> rfl

theorem squeezeLoop_normal (hvalid : sponge.Valid)
    (hindex : sponge.byteIOIndex < sponge.rate / 8) {remaining : ℕ}
    (hlength : dataByteLen = i + remaining) (hrest : 0 < remaining) {part : ℕ}
    (hpart : partialBlock (sponge.rate / 8) sponge.byteIOIndex remaining = part)
    (hinside : sponge.byteIOIndex + part ≤ sponge.rate / 8) :
    squeezeLoop dataByteLen (turns + 1) sponge i =
      (squeezeLoop dataByteLen turns (given sponge part).2 (i + part)).map
        fun r => ((given sponge part).1 ++ r.1, r.2) := by
  have hle := hvalid.rate_le
  have hgiven : given sponge part = ((sponge.state.toList.drop sponge.byteIOIndex).take part,
      { sponge with byteIOIndex := sponge.byteIOIndex + part }) := by
    rw [given, squeezed, Sponge.squeeze_within hinside]
    rfl
  rw [squeezeLoop, if_pos (by omega), if_neg (fun h => hindex.ne h.1), if_neg hindex.ne, hlength,
    Nat.add_sub_cancel_left]
  dsimp only
  rw [hpart, squeezePartial_eq (by omega), if_pos (by omega), hgiven]
  simp only [Option.bind_eq_bind, Option.bind_some]
  cases squeezeLoop (i + remaining) turns
    { sponge with byteIOIndex := sponge.byteIOIndex + part } (i + part) <;> rfl

theorem squeezeLoop_short (hvalid : sponge.Valid) (hindex : sponge.byteIOIndex = sponge.rate / 8)
    {remaining : ℕ} (hlength : dataByteLen = i + remaining)
    (hshort : remaining < sponge.rate / 8) :
    squeezeLoop dataByteLen (turns + 2) sponge i = some (given sponge remaining) := by
  rcases Nat.eq_zero_or_pos remaining with rfl | hrest
  · exact squeezeLoop_done (by omega)
  · have hle := hvalid.rate_le
    have hpart : partialBlock (sponge.rate / 8) 0 remaining = remaining := by
      rw [partialBlock_of_lt (Nat.zero_le _) (by omega)]
      omega
    have hgiven : given sponge remaining = ((statePermute sponge.state).toList.take remaining,
        { sponge with state := statePermute sponge.state, byteIOIndex := remaining }) := by
      rw [given, squeezed, Sponge.squeeze_full hvalid.rate_pos hrest hindex,
        Sponge.squeeze_within (by simpa using hshort.le)]
      simp [KeccakSpongeInstance.io, KeccakSpongeInstance.withIo]
    rw [squeezeLoop, if_pos (by omega), if_neg (by omega), if_pos hindex, hlength,
      Nat.add_sub_cancel_left]
    dsimp only
    rw [hpart, squeezePartial_eq (by omega), if_pos (by omega)]
    simp only [Option.bind_eq_bind, Option.bind_some]
    rw [squeezeLoop_done le_rfl, hgiven]
    simp [given]

/-- Once nothing is left of the part, no turn gives anything. -/
theorem squeezeLoop_stuck (hvalid : sponge.Valid) (hindex : sponge.byteIOIndex < sponge.rate / 8)
    {remaining : ℕ} (hlength : dataByteLen = i + remaining) (hrest : 0 < remaining)
    (hzero : remaining % 2 ^ 32 = 0) : squeezeLoop dataByteLen turns sponge i = none := by
  have hle := hvalid.rate_le
  have hpart : partialBlock (sponge.rate / 8) sponge.byteIOIndex remaining = 0 := by
    rw [partialBlock_of_lt hvalid.index_le (by omega), hzero, Nat.zero_min]
  induction turns with
  | zero => rfl
  | succ turns ih =>
    have hgiven : given sponge 0 = ([], sponge) := rfl
    rw [squeezeLoop_normal hvalid hindex hlength hrest hpart hindex.le, hgiven, Nat.add_zero, ih]
    rfl

theorem valid_given (hvalid : sponge.Valid) (hphase : sponge.squeezing = true) {n : ℕ}
    (hindex : (given sponge n).2.byteIOIndex ≤ sponge.rate / 8) : (given sponge n).2.Valid where
  rate_pos := hvalid.rate_pos
  rate_le := hvalid.rate_le
  index_le := hindex
  index_lt h := by simp [hphase] at h

theorem squeezeLoop_of_index_eq_rate (hvalid : sponge.Valid) (hphase : sponge.squeezing = true)
    (hindex : sponge.byteIOIndex = sponge.rate / 8) {remaining : ℕ}
    (hlength : dataByteLen = i + remaining) (hturns : remaining + 3 ≤ turns) :
    squeezeLoop dataByteLen turns sponge i = some (given sponge remaining) := by
  obtain ⟨turns, rfl⟩ : ∃ n, turns = n + 3 := ⟨turns - 3, by omega⟩
  rcases lt_or_ge remaining (sponge.rate / 8) with hshort | hblock
  · exact squeezeLoop_short hvalid hindex hlength hshort
  · have hpos := hvalid.rate_pos
    obtain ⟨blocks, hblocks⟩ : ∃ n, remaining / (sponge.rate / 8) * (sponge.rate / 8) = n :=
      ⟨_, rfl⟩
    have hdivmod := Nat.div_add_mod' remaining (sponge.rate / 8)
    have hmod : remaining % (sponge.rate / 8) < sponge.rate / 8 := Nat.mod_lt _ hpos
    obtain ⟨bytes, state', -, hsqueezed⟩ :=
      squeezeBlocks_eq sponge.state _ hpos hvalid.rate_le (Nat.lt_succ_self (remaining / _))
    have hfull : (given sponge blocks).2.byteIOIndex = sponge.rate / 8 := by
      rw [given, KeccakSpongeInstance.io, hindex, ← hblocks, hsqueezed]
      rfl
    rw [squeezeLoop_fast hvalid hindex hlength hblock (by omega) hblocks,
      squeezeLoop_short (valid_given hvalid hphase hfull.le) hfull
        (show dataByteLen = i + blocks + (remaining - blocks) by omega) (by simp; omega)]
    have hsum : given sponge remaining = given sponge (blocks + (remaining - blocks)) := by
      congr 1
      omega
    rw [hsum, given_add]
    rfl

end Loop

/-- When the sponge meets the request: a block has just ended, or the part of it that is given
first is computed right. -/
def Squeezable (sponge : KeccakSpongeInstance) (dataByteLen : ℕ) : Prop :=
  sponge.byteIOIndex = sponge.rate / 8 ∨
    Queued (sponge.rate / 8) sponge.byteIOIndex dataByteLen

section Outcome

variable {sponge : KeccakSpongeInstance} {turns n : ℕ}

theorem squeezeLoop_of_squeezable (hvalid : sponge.Valid) (hphase : sponge.squeezing = true)
    (h : Squeezable sponge n) (hturns : n + 4 ≤ turns) :
    squeezeLoop n turns sponge 0 = some (given sponge n) := by
  rcases h with hindex | ⟨hsum, hqueued⟩
  · exact squeezeLoop_of_index_eq_rate hvalid hphase hindex (by simp) (by omega)
  · obtain ⟨turns, rfl⟩ : ∃ n, turns = n + 4 := ⟨turns - 4, by omega⟩
    rcases hvalid.index_le.eq_or_lt with hindex | hindex
    · exact squeezeLoop_of_index_eq_rate hvalid hphase hindex (by simp) (by omega)
    rcases Nat.eq_zero_or_pos n with rfl | hrest
    · exact squeezeLoop_done le_rfl
    have hpart := partialBlock_of_lt hvalid.index_le hsum
    obtain ⟨part, hpartEq⟩ : ∃ k, k = min (n % 2 ^ 32)
      (sponge.rate / 8 - sponge.byteIOIndex) := ⟨_, rfl⟩
    rw [← hpartEq] at hpart
    have hmod := Nat.mod_le n (2 ^ 32)
    have hgiven : (given sponge part).2.byteIOIndex = sponge.byteIOIndex + part := by
      have hwithin := @Sponge.squeeze_within _ _ statePermute (sponge.rate / 8) sponge.io part
        (by simp only [KeccakSpongeInstance.io]; omega)
      rw [given, squeezed, hwithin]
      rfl
    have hsplit : given sponge n = given sponge (part + (n - part)) := by
      congr 1
      omega
    rw [squeezeLoop_normal hvalid hindex (by simp) hrest hpart (by omega), hsplit, given_add]
    by_cases hfull : sponge.byteIOIndex + part = sponge.rate / 8
    · -- The block has ended, and the rest starts there.
      rw [squeezeLoop_of_index_eq_rate (valid_given hvalid hphase (by omega)) hphase
        (by rw [hgiven]; exact hfull) (show n = 0 + part + (n - part) by omega) (by omega)]
      rfl
    · obtain rfl : part = n := by
        rcases hqueued with hsmall | hlarge
        · rw [Nat.mod_eq_of_lt hsmall] at hpartEq
          omega
        · omega
      rw [squeezeLoop_done (by simp), Nat.sub_self]
      rfl

theorem squeezeLoop_of_not_squeezable (hvalid : sponge.Valid) (hphase : sponge.squeezing = true)
    (h : ¬Squeezable sponge n) : squeezeLoop n turns sponge 0 = none := by
  obtain ⟨hindex, hqueued⟩ := not_or.mp h
  have hlt : sponge.byteIOIndex < sponge.rate / 8 := lt_of_le_of_ne hvalid.index_le hindex
  have hle := hvalid.rate_le
  have hrest : 0 < n := by
    rcases Nat.eq_zero_or_pos n with rfl | hpos
    · exact absurd ⟨by simp; omega, Or.inl (by simp)⟩ hqueued
    · exact hpos
  cases turns with
  | zero => rfl
  | succ turns =>
    rcases lt_or_ge (n % 2 ^ 32 + sponge.byteIOIndex) (2 ^ 32) with hsum | hsum
    · -- The part ends before the block does, and a multiple of 2 ^ 32 bytes is left.
      obtain ⟨hlarge, hshort⟩ := not_or.mp fun h => hqueued ⟨hsum, h⟩
      have hpart := partialBlock_of_lt hvalid.index_le hsum
      rw [min_eq_left (by omega)] at hpart
      have hdivmod := Nat.div_add_mod' n (2 ^ 32)
      have hgiven : (given sponge (n % 2 ^ 32)).2.byteIOIndex =
          sponge.byteIOIndex + n % 2 ^ 32 := by
        have hwithin := @Sponge.squeeze_within _ _ statePermute (sponge.rate / 8) sponge.io
          (n % 2 ^ 32) (by simp only [KeccakSpongeInstance.io]; omega)
        rw [given, squeezed, hwithin]
        rfl
      rw [squeezeLoop_normal hvalid hlt (by simp) hrest hpart (by omega),
        squeezeLoop_stuck (valid_given hvalid hphase (by omega))
          (by rw [hgiven, rate_given]; omega)
          (show n = 0 + n % 2 ^ 32 + (n - n % 2 ^ 32) by omega) (by omega) (by omega)]
      rfl
    · -- The sum overflows, and the part is read from behind the state.
      have hpart := partialBlock_of_ge hvalid.index_le hle hsum
      rw [squeezeLoop, if_pos hrest, if_neg (fun h => hindex h.1), if_neg hindex, Nat.sub_zero]
      dsimp only
      rw [hpart, squeezePartial_eq (by omega), if_neg (by omega)]
      rfl

/-- A sponge that meets the request gives byte after byte. The loop of any other one leaves the
state or does not end. -/
theorem spongeSqueeze_outcome (hvalid : sponge.Valid) (hphase : sponge.squeezing = true) (n : ℕ) :
    (Squeezable sponge n → ∀ turns ≥ n + 4,
      spongeSqueeze turns sponge n = some (.success, given sponge n)) ∧
    (¬Squeezable sponge n → ∀ turns, spongeSqueeze turns sponge n = none) := by
  have hloop : ∀ turns, spongeSqueeze turns sponge n =
      (squeezeLoop n turns sponge 0).map (.success, ·) := by
    intro turns
    rw [spongeSqueeze, closed, if_pos hphase]
    simp only [Option.bind_eq_bind, Option.bind_some]
    cases squeezeLoop n turns sponge 0 <;> rfl
  constructor
  · intro h turns hturns
    rw [hloop, squeezeLoop_of_squeezable hvalid hphase h hturns]
    rfl
  · intro h turns
    rw [hloop, squeezeLoop_of_not_squeezable hvalid hphase h]
    rfl

/-- A request that is as large as a word, at the start of a block. -/
theorem spongeSqueeze_outcome_large :
    let sponge : KeccakSpongeInstance := ⟨stateInitialize, 1088, 0, true⟩
    (Squeezable sponge (2 ^ 32) → ∀ turns ≥ 2 ^ 32 + 4,
      spongeSqueeze turns sponge (2 ^ 32) = some (.success, given sponge (2 ^ 32))) ∧
    (¬Squeezable sponge (2 ^ 32) → ∀ turns, spongeSqueeze turns sponge (2 ^ 32) = none) :=
  spongeSqueeze_outcome ⟨by decide, by decide, by decide, fun h => by cases h⟩ rfl (2 ^ 32)

end Outcome

end KeccakSponge

end NexusPool
