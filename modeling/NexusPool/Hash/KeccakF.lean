import NexusPool.Codec.LittleEndian
import NexusPool.Library.InPlace
import NexusPool.Library.Rotation
import NexusPool.Library.Sponge

/-!
# The Keccak-f[1600] state of `Keccak-compact64.cpp`

The state is 200 bytes, which the permutation reads as 25 lanes of 64 bits, lane `x + 5 * y` for
column `x` and row `y`. It is updated in place. Data is combined with the bytes of the state, and
read from them; what would leave the state or the data is undefined.
-/

namespace NexusPool

abbrev KeccakState := Vector UInt8 200

abbrev Lanes := Vector UInt64 25

attribute [local instance] InPlace.neZero_five

/-! ### Tables -/

def keccakFRotationConstants : Vector UInt64 25 :=
  #v[1, 3, 6, 10, 15, 21, 28, 36, 45, 55, 2, 14, 27, 41, 56, 8, 25, 43, 62, 18, 39, 61, 20, 44, 0]

def keccakFPiLane : Vector (Fin 25) 25 :=
  #v[10, 7, 11, 17, 18, 3, 5, 16, 8, 21, 24, 4, 15, 23, 19, 13, 12, 2, 20, 14, 22, 9, 6, 1, 0]

def keccakFMod5 : Vector (Fin 5) 10 := #v[0, 1, 2, 3, 4, 0, 1, 2, 3, 4]

def rol64 (a offset : UInt64) : UInt64 := (a <<< offset) ^^^ (a >>> (64 - offset))

def laneIndex (x y : Fin 5) : Fin 25 := ⟨y * 5 + x, by omega⟩

/-! ### The permutation -/

namespace KeccakF1600

/-- One turn of the loop over the bits `i - 1` that a round constant may have. -/
def nextBit (s : UInt64 × UInt32) (i : UInt64) : UInt64 × UInt32 :=
  let (roundConstant, tempLfsr) := s
  let doXor := tempLfsr &&& 1
  (if doXor ≠ 0 then roundConstant ^^^ (1 <<< (i - 1)) else roundConstant,
    if tempLfsr &&& 0x80 ≠ 0 then (tempLfsr <<< 1) ^^^ 0x71 else tempLfsr <<< 1)

/-- The register is not cut to eight bits before it is stored. -/
def getNextRoundConstant (lfsr : UInt8) : UInt64 × UInt8 :=
  let (roundConstant, tempLfsr) := [1, 2, 4, 8, 16, 32, 64].foldl nextBit (0, lfsr.toUInt32)
  (roundConstant, tempLfsr.toUInt8)

/-- `BC`: the parities of the columns, computed before any lane changes. -/
def columnParities (state : Lanes) : Vector UInt64 5 := Vector.ofFn fun x =>
  state[laneIndex x 0] ^^^ state[laneIndex x 1] ^^^ state[laneIndex x 2] ^^^
    state[laneIndex x 3] ^^^ state[laneIndex x 4]

def theta (state : Lanes) : Lanes :=
  let bc := columnParities state
  InPlace.update (fun p : Fin 5 × Fin 5 => laneIndex p.1 p.2)
    (fun p lane => lane ^^^
      (bc[keccakFMod5[p.1.val + 4]] ^^^ rol64 bc[keccakFMod5[p.1.val + 1]] 1))
    state (List.finRange 5 ×ˢ List.finRange 5)

/-- Each lane is rotated and moved to the place of the next one, starting with lane 1. -/
def rhoPi (state : Lanes) : Lanes :=
  InPlace.carry (fun x : Fin 24 => keccakFPiLane[x.castSucc])
    (fun x temp => rol64 temp keccakFRotationConstants[x.castSucc])
    state[1] state (List.finRange 24)

/-- `BC`: the row as it is before its lanes change. -/
def rowCopy (state : Lanes) (y : Fin 5) : Vector UInt64 5 :=
  Vector.ofFn fun x => state[laneIndex x y]

def chiRow (state : Lanes) (y : Fin 5) : Lanes :=
  let bc := rowCopy state y
  InPlace.update (fun x => laneIndex x y)
    (fun x _ => bc[x] ^^^ (~~~bc[keccakFMod5[x.val + 1]] &&& bc[keccakFMod5[x.val + 2]]))
    state (List.finRange 5)

def chi (state : Lanes) : Lanes := (List.finRange 5).foldl chiRow state

def iota (roundConstant : UInt64) (state : Lanes) : Lanes :=
  state.set 0 (state[0] ^^^ roundConstant)

/-- One turn of the loop, with the register of the round constants. -/
def round (s : Lanes × UInt8) : Lanes × UInt8 :=
  let next := getNextRoundConstant s.2
  (iota next.1 (chi (rhoPi (theta s.1))), next.2)

def permuteLanes (state : Lanes) : Lanes := (round^[24] (state, 0x01)).1

/-! ### Lanes and bytes -/

def lanes (state : KeccakState) : Lanes :=
  ⟨(wordsOfBytes state.toList).toArray, by simp [length_wordsOfBytes]⟩

def ofLanes (state : Lanes) : KeccakState := ⟨(bytesOfWords state.toList).toArray, by simp⟩

theorem lanes_ofLanes (state : Lanes) : lanes (ofLanes state) = state := by
  apply Vector.toList_inj.mp
  simp [lanes, ofLanes]

theorem ofLanes_lanes (state : KeccakState) : ofLanes (lanes state) = state := by
  apply Vector.toList_inj.mp
  simp [lanes, ofLanes, bytesOfWords_wordsOfBytes]

theorem getElem_ofLanes (state : Lanes) {k : ℕ} (hk : k < 200) :
    (ofLanes state)[k] = byteOfWord state[k / 8] (k % 8) := by
  have hbyte := getElem?_bytesOfWords state.toList k
  have hlane : k / 8 < 25 := by omega
  rw [List.getElem?_eq_getElem (by simpa using hk), List.getElem?_eq_getElem (by simpa using hlane),
    Option.map_some, Option.some.injEq] at hbyte
  simpa [ofLanes] using hbyte

def statePermute (state : KeccakState) : KeccakState := ofLanes (permuteLanes (lanes state))

def stateInitialize : KeccakState := Vector.replicate 200 0

def stateXORBytesInLane (state : KeccakState) (lanePosition : ℕ) (data : Bytes)
    (offset length : ℕ) : Option KeccakState :=
  if length ≤ data.length ∧ lanePosition * 8 + offset + length ≤ 200 then
    some (Sponge.overlay (· ^^^ ·) state (lanePosition * 8 + offset) (data.take length))
  else none

def stateXORLanes (state : KeccakState) (data : Bytes) (laneCount : ℕ) : Option KeccakState :=
  if laneCount * 8 ≤ data.length ∧ laneCount * 8 ≤ 200 then
    some (Sponge.overlay (· ^^^ ·) state 0 (data.take (laneCount * 8)))
  else none

def stateComplementBit (state : KeccakState) (position : ℕ) : Option KeccakState :=
  if h : position / 64 < 25 then
    let state := lanes state
    some (ofLanes (state.set (position / 64)
      (state[position / 64] ^^^ (1 <<< UInt64.ofNat (position % 64)))))
  else none

def stateExtractBytesInLane (state : KeccakState) (lanePosition offset length : ℕ) :
    Option Bytes :=
  if lanePosition * 8 + offset + length ≤ 200 then
    some ((state.toList.drop (lanePosition * 8 + offset)).take length)
  else none

def stateExtractLanes (state : KeccakState) (laneCount : ℕ) : Option Bytes :=
  if laneCount * 8 ≤ 200 then some (state.toList.take (laneCount * 8)) else none

def stateXORPermuteExtract (state : KeccakState) (inData : Bytes)
    (inLaneCount outLaneCount : ℕ) : Option (KeccakState × Bytes) := do
  let state := statePermute (← stateXORLanes state inData inLaneCount)
  pure (state, ← stateExtractLanes state outLaneCount)

end KeccakF1600

end NexusPool
