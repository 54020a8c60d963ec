import NexusPool.Hash.BaseUint
import NexusPool.Ledger.Coinbase
import NexusPool.Ledger.Database

/-!
# Account and block records

The two record types of `record.h` with their byte formats, and when a record survives
being written and read back.
-/

namespace NexusPool

/-! ### Accounts -/

structure Account where
  cKey : Bytes
  nAccountBalance : UInt64
  nRoundShares : UInt64
  nBlocksFound : UInt32
  deriving DecidableEq

namespace Account

/-- A new account; the blank record is the one with the empty key. -/
def new (strKey : Bytes) : Account := ⟨strKey, 0, 0, 0⟩

instance : Record Bytes Account where
  cKey := Account.cKey
  blank := new []

@[simp] theorem record_cKey (a : Account) : Record.cKey a = a.cKey := rfl

@[simp] theorem record_blank : (Record.blank : Account) = new [] := rfl

def serialize (a : Account) : Bytes :=
  uint2bytes64 a.nAccountBalance ++ uint2bytes64 a.nRoundShares ++ uint2bytes a.nBlocksFound ++
    a.cKey

/-- The key is everything from byte 20 on; a shorter buffer has no such place. -/
def deserialize [Target] (vInputData : Bytes) : Option Account :=
  if vInputData.length < 20 then none
  else some
    { cKey := vInputData.drop 20
      nAccountBalance := bytes2uint64 vInputData 0
      nRoundShares := bytes2uint64 vInputData 8
      nBlocksFound := bytes2uint vInputData 16 }

theorem deserialize_serialize [Target] (a : Account) :
    deserialize a.serialize = some
      { a with
        nAccountBalance := bytes2uint64 (uint2bytes64 a.nAccountBalance) 0
        nRoundShares := bytes2uint64 (uint2bytes64 a.nRoundShares) 0 } := by
  have hshares : bytes2uint64 a.serialize 8 = bytes2uint64 (uint2bytes64 a.nRoundShares) 0 := by
    simp only [serialize, List.append_assoc]
    rw [bytes2uint64_append (length_uint2bytes64 _)]
    rfl
  have hblocks : bytes2uint a.serialize 16 = a.nBlocksFound := by
    rw [serialize, List.append_assoc,
      bytes2uint_append (by simp : (uint2bytes64 _ ++ uint2bytes64 _).length = 16),
      bytes2uint_uint2bytes]
  have hkey : a.serialize.drop 20 = a.cKey := List.drop_left' (by simp)
  have hlen : ¬ a.serialize.length < 20 := by
    simp [serialize]
    omega
  have hbalance : bytes2uint64 a.serialize 0 = bytes2uint64 (uint2bytes64 a.nAccountBalance) 0 :=
    rfl
  rw [deserialize, if_neg hlen, hbalance, hshares, hblocks, hkey]

/-- An account survives being written and read back exactly when its balance and its
shares both fit 32 bits. -/
theorem serialize_roundtrip_iff [Target] (a : Account) :
    deserialize a.serialize = some a ↔
      a.nAccountBalance.toNat < 2 ^ 32 ∧ a.nRoundShares.toNat < 2 ^ 32 := by
  rw [deserialize_serialize, ← preserved_iff, ← preserved_iff, Preserved, Preserved]
  obtain ⟨cKey, balance, shares, blocks⟩ := a
  simp

/-- A balance of `2 ^ 32` comes back as another amount, whatever the shift yields. -/
theorem serialize_loses_balance :
    ¬ ∀ a : Account, @deserialize .masking a.serialize = some a ∨
      @deserialize .clearing a.serialize = some a := by
  intro h
  have := h ⟨[], 4294967296, 0, 0⟩
  revert this
  decide

end Account

/-! ### Blocks -/

structure Block where
  cKey : Uint1024
  nCoinbaseValue : UInt64
  cCoinbase : Coinbase
  cCredits : Credits
  nRound : UInt32

namespace Block

/-- A new block record; the blank one has the key zero. -/
def new (nKey : Uint1024) : Block := ⟨nKey, 0, .empty, .empty, 0⟩

instance : Record Uint1024 Block where
  cKey := Block.cKey
  blank := new 0

@[simp] theorem record_cKey (b : Block) : Record.cKey b = b.cKey := rfl

@[simp] theorem record_blank : (Record.blank : Block) = new 0 := rfl

/-- The coinbase goes behind its length, the credits are whatever lies before the last
132 bytes. -/
def serialize (b : Block) : Bytes :=
  let vCoinbase := b.cCoinbase.serialize
  uint2bytes64 b.nCoinbaseValue ++ uint2bytes vCoinbase.length.toUInt32 ++ vCoinbase ++
    b.cCredits.serialize ++ uint2bytes b.nRound ++ b.cKey.getBytes

/-- `none` where a slice would start after its end. -/
def deserialize [Target] (vInputData : Bytes) : Option Block :=
  let nBytes := (bytes2uint vInputData 8).toNat
  if vInputData.length < nBytes + 12 + 132 then none
  else do
    let nCoinbaseValue := bytes2uint64 vInputData 0
    let cCoinbase ← Coinbase.deserialize ((vInputData.drop 12).take nBytes) nCoinbaseValue
    let cCredits ← Credits.deserialize
      ((vInputData.take (vInputData.length - 132)).drop (nBytes + 12))
    let cKey ← BaseUint.setBytes 32 (vInputData.drop (vInputData.length - 128))
    some
      { cKey := cKey
        nCoinbaseValue := nCoinbaseValue
        cCoinbase := cCoinbase
        cCredits := cCredits
        nRound := bytes2uint (vInputData.drop (vInputData.length - 132)) 0 }

section Codec

variable [Target]

instance (n : UInt64) : Decidable (Preserved n) := inferInstanceAs (Decidable (_ = _))

instance (entry : Bytes × UInt64) : Decidable (Encodable entry) :=
  inferInstanceAs (Decidable (_ ∧ _))

/-- What a block record is built from: short addresses, amounts the codec keeps, and a
coinbase the pool has put together. -/
structure WellBuilt (b : Block) : Prop where
  outputs : ∀ entry ∈ b.cCoinbase.mapOutputs.toList, Encodable entry
  credits : ∀ entry ∈ b.cCredits.mapCredits.toList, Encodable entry
  poolFee : Preserved b.cCoinbase.nPoolFee
  value : Preserved b.nCoinbaseValue
  coinbaseValue : b.nCoinbaseValue = b.cCoinbase.nMaxValue + b.cCoinbase.nPoolFee
  built : b.cCoinbase.Built

/-- Every slice of the encoding is the field it was written from. -/
theorem deserialize_serialize {b : Block} (hvalue : Preserved b.nCoinbaseValue)
    (hlen : b.cCoinbase.serialize.length < 2 ^ 32) :
    deserialize b.serialize =
      (Coinbase.deserialize b.cCoinbase.serialize b.nCoinbaseValue).bind fun cCoinbase =>
        (Credits.deserialize b.cCredits.serialize).map fun cCredits =>
          { b with cCoinbase := cCoinbase, cCredits := cCredits } := by
  have hnBytes : (bytes2uint b.serialize 8).toNat = b.cCoinbase.serialize.length := by
    simp only [serialize, List.append_assoc]
    rw [bytes2uint_append (length_uint2bytes64 _), bytes2uint_uint2bytes]
    simpa using Nat.mod_eq_of_lt hlen
  have hlength : b.serialize.length =
      b.cCoinbase.serialize.length + 12 + b.cCredits.serialize.length + 132 := by
    simp [serialize]
    omega
  have hvalue' : bytes2uint64 b.serialize 0 = b.nCoinbaseValue := hvalue
  have hcoinbase : (b.serialize.drop 12).take b.cCoinbase.serialize.length =
      b.cCoinbase.serialize := by
    simp only [serialize, List.append_assoc]
    rw [← List.append_assoc, List.drop_left' (by simp), List.take_left]
  have hcredits : (b.serialize.take (b.serialize.length - 132)).drop
      (b.cCoinbase.serialize.length + 12) = b.cCredits.serialize := by
    have htake : b.serialize.take (b.serialize.length - 132) =
        (uint2bytes64 b.nCoinbaseValue ++ uint2bytes b.cCoinbase.serialize.length.toUInt32 ++
          b.cCoinbase.serialize) ++ b.cCredits.serialize := by
      rw [serialize, List.append_assoc _ (uint2bytes _) b.cKey.getBytes]
      exact List.take_left' (by simp; omega)
    rw [htake]
    exact List.drop_left' (by simp; omega)
  have hround : bytes2uint (b.serialize.drop (b.serialize.length - 132)) 0 = b.nRound := by
    have hdrop : b.serialize.drop (b.serialize.length - 132) =
        uint2bytes b.nRound ++ b.cKey.getBytes := by
      rw [serialize, List.append_assoc _ (uint2bytes _) b.cKey.getBytes]
      exact List.drop_left' (by simp; omega)
    rw [hdrop, bytes2uint_uint2bytes]
  have hkey : b.serialize.drop (b.serialize.length - 128) = b.cKey.getBytes := by
    rw [serialize]
    exact List.drop_left' (by simp; omega)
  have hlong : ¬ b.serialize.length < b.cCoinbase.serialize.length + 12 + 132 := by omega
  simp only [deserialize, hnBytes, hlong, if_false, hvalue', hcoinbase, hcredits, hround, hkey,
    BaseUint.setBytes_getBytes]
  cases Coinbase.deserialize b.cCoinbase.serialize b.nCoinbaseValue with
  | none => rfl
  | some cCoinbase => cases Credits.deserialize b.cCredits.serialize <;> rfl

/-- The record read back from its own encoding agrees with it in everything but the
running total and the maximum of the coinbase. -/
def RoundTrips (b : Block) : Prop :=
  ∃ b', deserialize b.serialize = some b' ∧ b'.cKey = b.cKey ∧ b'.nRound = b.nRound ∧
    b'.nCoinbaseValue = b.nCoinbaseValue ∧
    b'.cCoinbase.mapOutputs = b.cCoinbase.mapOutputs ∧
    b'.cCredits.mapCredits = b.cCredits.mapCredits ∧
    b'.cCoinbase.isComplete = b.cCoinbase.isComplete ∧
    b'.cCoinbase.getRemainder = b.cCoinbase.getRemainder

/-- The outputs the wallet reads out of the payload are those of the coinbase. -/
def PayloadCarries (c : Coinbase) : Prop :=
  ∀ nValue, ∃ c', Coinbase.deserialize c.serialize nValue = some c' ∧ c'.mapOutputs = c.mapOutputs

theorem length_serialize_lt {c : Coinbase} (hsize : c.mapOutputs.size < 256)
    (hentries : ∀ entry ∈ c.mapOutputs.toList, Encodable entry) : c.serialize.length < 2 ^ 32 := by
  have hbody := length_flatMap_serializeEntry_le c.mapOutputs.toList hentries
  simp only [Coinbase.serialize, List.length_append, List.length_cons, length_uint2bytes64,
    Std.ExtTreeMap.length_toList] at hbody ⊢
  omega

/-- The decoder's total and maximum both include the fee, so their difference does not. -/
theorem roundTrips_of_size_lt {b : Block} (h : b.WellBuilt)
    (houtputs : b.cCoinbase.mapOutputs.size < 256) (hcredits : b.cCredits.mapCredits.size < 256) :
    b.RoundTrips := by
  have hdecode := deserialize_serialize h.value (length_serialize_lt houtputs h.outputs)
  rw [Coinbase.deserialize_serialize _ houtputs h.poolFee h.outputs,
    Credits.deserialize_serialize hcredits h.credits] at hdecode
  have htotal := h.built.nCurrentValue_eq_total
  refine ⟨_, hdecode, rfl, rfl, rfl, rfl, rfl, ?_, ?_⟩
  · rw [Bool.eq_iff_iff]
    simp only [Coinbase.isComplete, beq_iff_eq, h.coinbaseValue, htotal, Coinbase.total]
    rw [add_comm b.cCoinbase.nMaxValue, add_right_inj]
  · simp only [Coinbase.getRemainder, h.coinbaseValue, htotal, Coinbase.total]
    abel

theorem size_lt_of_roundTrips {b : Block} (h : b.RoundTrips) :
    b.cCoinbase.mapOutputs.size < 256 ∧ b.cCredits.mapCredits.size < 256 := by
  obtain ⟨b', hdecode, -, -, -, houtputs, hcredits, -, -⟩ := h
  simp only [deserialize] at hdecode
  split_ifs at hdecode
  simp only [Option.bind_eq_bind, Option.bind_eq_some_iff, Option.some.injEq] at hdecode
  obtain ⟨cCoinbase, hcoinbase, cCredits, hdecoded, cKey, -, rfl⟩ := hdecode
  exact ⟨houtputs ▸ Coinbase.size_lt_of_deserialize _ hcoinbase,
    hcredits ▸ Credits.size_lt_of_deserialize hdecoded⟩

/-- A block record and the coinbase sent to the wallet survive their encoding exactly when
the outputs and the credits both number fewer than 256. -/
theorem roundTrips_iff {b : Block} (h : b.WellBuilt) :
    b.RoundTrips ∧ PayloadCarries b.cCoinbase ↔
      b.cCoinbase.mapOutputs.size < 256 ∧ b.cCredits.mapCredits.size < 256 := by
  constructor
  · rintro ⟨hblock, -⟩
    exact size_lt_of_roundTrips hblock
  · rintro ⟨houtputs, hcredits⟩
    exact ⟨roundTrips_of_size_lt h houtputs hcredits, fun nValue =>
      ⟨_, Coinbase.deserialize_serialize nValue houtputs h.poolFee h.outputs, rfl⟩⟩

end Codec

section Masking

local instance : Target := .masking

/-- A block whose only account is paid and credited. -/
def solo : Block :=
  { new 0 with
    nCoinbaseValue := 8
    cCoinbase := ({ Coinbase.empty with nPoolFee := 3 }.reset 5 |>.addTransaction [65] 5).2
    cCredits := Credits.empty.addCredit [65] 2 }

theorem solo_wellBuilt : solo.WellBuilt where
  outputs := by decide
  credits := by decide
  poolFee := by decide
  value := by decide
  coinbaseValue := by decide
  built := .addTransaction _ _ (.reset _ (.poolFee _ .empty))

theorem solo_roundTrips : solo.RoundTrips ∧ PayloadCarries solo.cCoinbase :=
  (roundTrips_iff solo_wellBuilt).mpr (by decide)

/-- A round in which 256 accounts have earned a credit each. -/
def crowded : Block :=
  { new 0 with
    cCredits := (List.range 256).foldl (fun c i => c.addCredit [i.toUInt8] 1) .empty }

theorem crowded_wellBuilt : crowded.WellBuilt where
  outputs := by decide
  credits := by decide +kernel
  poolFee := by decide
  value := by decide
  coinbaseValue := by decide
  built := .empty

theorem crowded_lost : ¬ ∀ b : Block, b.WellBuilt → b.RoundTrips ∧ PayloadCarries b.cCoinbase := by
  intro h
  have hsize := (size_lt_of_roundTrips (h crowded crowded_wellBuilt).1).2
  revert hsize
  decide +kernel

end Masking

end Block

end NexusPool
