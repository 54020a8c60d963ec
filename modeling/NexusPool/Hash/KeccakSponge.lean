import NexusPool.Hash.KeccakF

/-!
# The Keccak sponge of `KeccakSponge.cpp`

Data goes in and out through a queue: whole blocks take a fast lane, and what begins or ends
within a block is combined with the state, or read from it, up to a lane at a time. The size of
such a part is kept in an `unsigned int`, and so is its sum with the position in the block. A
loop is given a number of turns; without a result in that many turns, and where the state or the
data is left, the outcome is `none`.
-/

namespace NexusPool

open KeccakF1600

/-- Also the return values 0 and 1 of the sponge functions. -/
inductive HashReturn
  | success
  | fail
  | badHashlen
  deriving DecidableEq

structure KeccakSpongeInstance where
  state : KeccakState
  rate : ℕ
  byteIOIndex : ℕ
  squeezing : Bool

namespace KeccakSponge

def spongeInitialize (sponge : KeccakSpongeInstance) (rate capacity : UInt32) :
    HashReturn × KeccakSpongeInstance :=
  if rate + capacity ≠ 1600 then (.fail, sponge)
  else if rate ≤ 0 ∨ rate > 1600 ∨ rate % 8 ≠ 0 then (.fail, sponge)
  else
    (.success,
      { state := stateInitialize
        rate := rate.toNat
        byteIOIndex := 0
        squeezing := false })

/-! ### Absorbing -/

/-- What a block has beyond its last whole lane. -/
def absorbRest (rateInBytes : ℕ) (state : KeccakState) (curData : Bytes) : Option KeccakState :=
  if rateInBytes % 8 > 0 then
    stateXORBytesInLane state (rateInBytes / 8) (curData.drop (rateInBytes / 8 * 8)) 0
      (rateInBytes % 8)
  else some state

/-- The fast lane. -/
def absorbBlocks (rateInBytes : ℕ) : ℕ → KeccakState → Bytes → ℕ →
    Option (KeccakState × Bytes × ℕ)
  | 0, _, _, _ => none
  | turns + 1, state, curData, j =>
    if j ≥ rateInBytes then do
      let state ← absorbRest rateInBytes state curData
      let (state, _) ← stateXORPermuteExtract state curData (rateInBytes / 8) 0
      absorbBlocks rateInBytes turns state (curData.drop rateInBytes) (j - rateInBytes)
    else some (state, curData, j)

/-- The inner loop of the normal lane, up to the end of a lane at each turn. -/
def absorbBytes (state : KeccakState) (byteIOIndex : ℕ) (curData : Bytes) (partialBlock : ℕ) :
    Option (KeccakState × ℕ × Bytes) :=
  if _h : partialBlock > 0 then do
    let offsetInLane := byteIOIndex % 8
    let bytesInLane := min (8 - offsetInLane) partialBlock
    let state ← stateXORBytesInLane state (byteIOIndex / 8) curData offsetInLane bytesInLane
    absorbBytes state (byteIOIndex + bytesInLane) (curData.drop bytesInLane)
      (partialBlock - bytesInLane)
  else some (state, byteIOIndex, curData)
termination_by partialBlock
decreasing_by
  have hpos : 0 < min (8 - byteIOIndex % 8) partialBlock := by
    rw [lt_min_iff]
    omega
  omega

def absorbPartial (state : KeccakState) (byteIOIndex : ℕ) (curData : Bytes) (partialBlock : ℕ) :
    Option (KeccakState × ℕ × Bytes) :=
  if byteIOIndex = 0 ∧ partialBlock ≥ 8 then do
    let state ← stateXORLanes state curData (partialBlock / 8)
    absorbBytes state (byteIOIndex + partialBlock / 8 * 8) (curData.drop (partialBlock / 8 * 8))
      (partialBlock - partialBlock / 8 * 8)
  else absorbBytes state byteIOIndex curData partialBlock

/-- The part of the remaining data that is taken in one turn of the normal lane. -/
def partialBlock (rateInBytes byteIOIndex remaining : ℕ) : ℕ :=
  if (remaining % 2 ^ 32 + byteIOIndex) % 2 ^ 32 > rateInBytes then rateInBytes - byteIOIndex
  else remaining % 2 ^ 32

def absorbLoop (dataByteLen : ℕ) : ℕ → KeccakSpongeInstance → Bytes → ℕ →
    Option KeccakSpongeInstance
  | 0, _, _, _ => none
  | turns + 1, sponge, curData, i =>
    let rateInBytes := sponge.rate / 8
    if i < dataByteLen then
      if sponge.byteIOIndex = 0 ∧ dataByteLen ≥ i + rateInBytes then do
        let (state, curData, j) ←
          absorbBlocks rateInBytes (turns + 1) sponge.state curData (dataByteLen - i)
        absorbLoop dataByteLen turns { sponge with state } curData (dataByteLen - j)
      else do
        let partialBlock := partialBlock rateInBytes sponge.byteIOIndex (dataByteLen - i)
        let (state, byteIOIndex, curData) ←
          absorbPartial sponge.state sponge.byteIOIndex curData partialBlock
        if byteIOIndex = rateInBytes then
          absorbLoop dataByteLen turns
            { sponge with state := statePermute state, byteIOIndex := 0 } curData
            (i + partialBlock)
        else
          absorbLoop dataByteLen turns { sponge with state, byteIOIndex } curData
            (i + partialBlock)
    else some sponge

def spongeAbsorb (turns : ℕ) (sponge : KeccakSpongeInstance) (data : Bytes) :
    Option (HashReturn × KeccakSpongeInstance) :=
  if sponge.squeezing then some (.fail, sponge)
  else (absorbLoop data.length turns sponge data 0).map (.success, ·)

/-- The last bits with the first bit of the padding, and the second one at the end of the
block, or of one more block if the first one fills it. -/
def spongeAbsorbLastFewBits (sponge : KeccakSpongeInstance) (delimitedData : UInt8) :
    Option (HashReturn × KeccakSpongeInstance) :=
  let rateInBytes := sponge.rate / 8
  if delimitedData = 0 then some (.fail, sponge)
  else if sponge.squeezing then some (.fail, sponge)
  else do
    let state ← stateXORBytesInLane sponge.state (sponge.byteIOIndex / 8) [delimitedData]
      (sponge.byteIOIndex % 8) 1
    let state := if delimitedData ≥ 0x80 ∧ sponge.byteIOIndex = rateInBytes - 1 then
      statePermute state else state
    let state ← stateComplementBit state (rateInBytes * 8 - 1)
    some (.success,
      { sponge with state := statePermute state, byteIOIndex := 0, squeezing := true })

/-! ### Squeezing -/

def squeezeRest (rateInBytes : ℕ) (state : KeccakState) : Option Bytes :=
  if rateInBytes % 8 > 0 then
    stateExtractBytesInLane state (rateInBytes / 8) 0 (rateInBytes % 8)
  else some []

def squeezeBlocks (rateInBytes : ℕ) : ℕ → KeccakState → ℕ → Option (Bytes × KeccakState × ℕ)
  | 0, _, _ => none
  | turns + 1, state, j =>
    if j ≥ rateInBytes then do
      let (state, lanes) ← stateXORPermuteExtract state [] 0 (rateInBytes / 8)
      let rest ← squeezeRest rateInBytes state
      let (data, state, j) ← squeezeBlocks rateInBytes turns state (j - rateInBytes)
      some (lanes ++ rest ++ data, state, j)
    else some ([], state, j)

def squeezeBytes (state : KeccakState) (byteIOIndex partialBlock : ℕ) : Option (Bytes × ℕ) :=
  if _h : partialBlock > 0 then do
    let offsetInLane := byteIOIndex % 8
    let bytesInLane := min (8 - offsetInLane) partialBlock
    let bytes ← stateExtractBytesInLane state (byteIOIndex / 8) offsetInLane bytesInLane
    let (data, byteIOIndex) ←
      squeezeBytes state (byteIOIndex + bytesInLane) (partialBlock - bytesInLane)
    some (bytes ++ data, byteIOIndex)
  else some ([], byteIOIndex)
termination_by partialBlock
decreasing_by
  have hpos : 0 < min (8 - byteIOIndex % 8) partialBlock := by
    rw [lt_min_iff]
    omega
  omega

def squeezePartial (state : KeccakState) (byteIOIndex partialBlock : ℕ) : Option (Bytes × ℕ) :=
  if byteIOIndex = 0 ∧ partialBlock ≥ 8 then do
    let lanes ← stateExtractLanes state (partialBlock / 8)
    let (data, byteIOIndex) ← squeezeBytes state (byteIOIndex + partialBlock / 8 * 8)
      (partialBlock - partialBlock / 8 * 8)
    some (lanes ++ data, byteIOIndex)
  else squeezeBytes state byteIOIndex partialBlock

def squeezeLoop (dataByteLen : ℕ) : ℕ → KeccakSpongeInstance → ℕ →
    Option (Bytes × KeccakSpongeInstance)
  | 0, _, _ => none
  | turns + 1, sponge, i =>
    let rateInBytes := sponge.rate / 8
    if i < dataByteLen then
      if sponge.byteIOIndex = rateInBytes ∧ dataByteLen ≥ i + rateInBytes then do
        let (blocks, state, j) ←
          squeezeBlocks rateInBytes (turns + 1) sponge.state (dataByteLen - i)
        let (data, sponge) ←
          squeezeLoop dataByteLen turns { sponge with state } (dataByteLen - j)
        some (blocks ++ data, sponge)
      else do
        let sponge := if sponge.byteIOIndex = rateInBytes then
          { sponge with state := statePermute sponge.state, byteIOIndex := 0 } else sponge
        let partialBlock := partialBlock rateInBytes sponge.byteIOIndex (dataByteLen - i)
        let (bytes, byteIOIndex) ← squeezePartial sponge.state sponge.byteIOIndex partialBlock
        let (data, sponge) ←
          squeezeLoop dataByteLen turns { sponge with byteIOIndex } (i + partialBlock)
        some (bytes ++ data, sponge)
    else some ([], sponge)

/-- A sponge that still absorbs is closed first, without further bits. -/
def closed (sponge : KeccakSpongeInstance) : Option KeccakSpongeInstance :=
  if sponge.squeezing then some sponge else (spongeAbsorbLastFewBits sponge 0x01).map (·.2)

def spongeSqueeze (turns : ℕ) (sponge : KeccakSpongeInstance) (dataByteLen : ℕ) :
    Option (HashReturn × Bytes × KeccakSpongeInstance) := do
  let result ← squeezeLoop dataByteLen turns (← closed sponge) 0
  some (.success, result)

end KeccakSponge

end NexusPool
