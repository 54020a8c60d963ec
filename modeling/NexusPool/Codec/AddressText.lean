import NexusPool.Codec.Base58Inverse
import NexusPool.Mining.BlockHash

/-!
# The text of an address and back

An address is made from a hash and from a text, and gives both. Whatever the hash that checks it
computes, the text of an address is read as that address, and the texts in base 58 that are read
as valid addresses are those of the public key and script hashes, each in one way.
-/

namespace NexusPool

open Base58

namespace NexusAddress

/-! ### Addresses and hashes -/

def setData (nVersionIn : UInt8) (pdata : Bytes) : NexusAddress := ⟨nVersionIn, pdata⟩

def setHash256 (hash256 : Uint256) : NexusAddress := setData pubkeyAddress hash256.memory

def setScriptHash256 (hash256 : Uint256) : NexusAddress := setData scriptAddress hash256.memory

def isScript (address : NexusAddress) : Bool :=
  if !address.isValid then false else address.nVersion = scriptAddress

/-- `none` where the assertion fails. -/
def getHash256 (address : NexusAddress) : Option Uint256 :=
  if address.vchData.length = 32 then BaseUint.ofMemory 8 address.vchData else none

def ofHash (script : Bool) (hash256 : Uint256) : NexusAddress :=
  if script then setScriptHash256 hash256 else setHash256 hash256

section Hash

variable {script : Bool} {hash256 : Uint256}

theorem ofHash_eq (script : Bool) (hash256 : Uint256) : ofHash script hash256 =
    ⟨if script then scriptAddress else pubkeyAddress, hash256.memory⟩ := by
  cases script <;> rfl

theorem isValid_ofHash : (ofHash script hash256).isValid := by
  have hlength : hash256.memory.length = 32 := hash256.length_memory
  cases script <;> simp [ofHash_eq, isValid, hlength]

theorem isScript_ofHash : (ofHash script hash256).isScript = script := by
  have hkinds : pubkeyAddress ≠ scriptAddress := by decide
  rw [isScript, isValid_ofHash, ofHash_eq]
  cases script <;> simp [hkinds]

theorem getHash256_ofHash : (ofHash script hash256).getHash256 = some hash256 := by
  have hlength : hash256.memory.length = 4 * 8 := hash256.length_memory
  obtain ⟨a, ha, hmemory⟩ := BaseUint.ofMemory_of_length hlength
  rw [getHash256, ofHash_eq, if_pos hlength, ha, BaseUint.memory_injective hmemory]

theorem exists_ofHash {address : NexusAddress} (h : address.isValid) :
    ∃ hash256, address.getHash256 = some hash256 ∧ address = ofHash address.isScript hash256 := by
  have hlength := length_vchData h
  obtain ⟨hash256, hhash, hmemory⟩ := BaseUint.ofMemory_of_length (w := 8) hlength
  refine ⟨hash256, by rw [getHash256, if_pos hlength, hhash], ?_⟩
  have hversion : address.nVersion =
      if address.isScript then scriptAddress else pubkeyAddress := by
    have hkinds := h
    simp only [isValid, Bool.or_eq_true, decide_eq_true_eq] at hkinds
    split_ifs at hkinds with hversion
    rw [isScript, h]
    rcases hversion with hversion | hversion <;> rw [hversion] <;> decide
  rw [ofHash_eq, ← hversion, hmemory]

end Hash

/-! ### Addresses and texts -/

variable {sk256 : Bytes → Uint256}

theorem decodeBase58Check_encodeBase58Check {vchIn : Bytes}
    (h : EncodeFits (vchIn ++ checksum (sk256 vchIn))) :
    ∃ s, encodeBase58Check sk256 vchIn = some s ∧
      decodeBase58Check sk256 (cString s) = some vchIn := by
  obtain ⟨s, hs, hdecode⟩ := decodeBase58_of_encodeFits h
  have hfront : (vchIn ++ checksum (sk256 vchIn)).length - 4 = vchIn.length := by
    simp [length_checksum]
  have hfour : ¬ (vchIn ++ checksum (sk256 vchIn)).length < 4 := by
    simp [length_checksum]
  refine ⟨s, hs, ?_⟩
  simp only [decodeBase58Check, hdecode, Option.bind_eq_bind, Option.bind_some,
    if_neg hfour, hfront, List.take_left, List.drop_left, if_true]

theorem ofString_toString {address : NexusAddress} (h : address.vchData.length < 2 ^ 29) :
    ∃ s, address.toString sk256 = some s ∧ ofString sk256 s = address := by
  have hfits : EncodeFits (address.nVersion :: address.vchData ++
      checksum (sk256 (address.nVersion :: address.vchData))) := by
    apply EncodeFits.of_length_le
    simp only [List.length_append, List.length_cons, length_checksum]
    omega
  obtain ⟨s, hs, hdecode⟩ := decodeBase58Check_encodeBase58Check hfits
  refine ⟨s, hs, ?_⟩
  rw [ofString, setString, hdecode]

/-- A text is all base 58 and is read as a valid address. -/
structure IsAddressText (sk256 : Bytes → Uint256) (s : Bytes) : Prop where
  base58 : IsBase58 s
  valid : (ofString sk256 s).isValid

theorem isBase58_of_toString {address : NexusAddress} {s : Bytes}
    (h : address.toString sk256 = some s) (hvalid : address.isValid) : IsBase58 s := by
  obtain ⟨zeroes, v, hbytes⟩ := exists_bytesOf (address.nVersion :: address.vchData ++
    checksum (sk256 (address.nVersion :: address.vchData)))
  have hlength := length_vchData hvalid
  have hfits : EncodeFits (bytesOf zeroes v) := by
    apply EncodeFits.of_length_le
    rw [← hbytes]
    simp [length_checksum, hlength]
  rw [toString, encodeBase58Check, hbytes, encodeBase58_bytesOf hfits] at h
  cases h
  exact isBase58_charsOf zeroes v

/-- Every hash has a text for a script and one for a public key, which give back the kind and the
hash, and no other text in base 58 is read as a valid address. -/
theorem addressText_inverse (sk256 : Bytes → Uint256) :
    (∀ script hash256, ∃ s, (ofHash script hash256).toString sk256 = some s ∧
      IsAddressText sk256 s ∧ (ofString sk256 s).isScript = script ∧
        (ofString sk256 s).getHash256 = some hash256) ∧
      ∀ s, IsAddressText sk256 s → ∃ hash256, (ofString sk256 s).getHash256 = some hash256 ∧
        (ofHash (ofString sk256 s).isScript hash256).toString sk256 = some s := by
  refine ⟨fun script hash256 => ?_, fun s hs => ?_⟩
  · have hshort : (ofHash script hash256).vchData.length < 2 ^ 29 := by
      rw [length_vchData isValid_ofHash]
      norm_num
    obtain ⟨s, hs, hread⟩ := @ofString_toString sk256 _ hshort
    refine ⟨s, hs, ⟨isBase58_of_toString hs isValid_ofHash, ?_⟩, ?_, ?_⟩
    · rw [hread]
      exact isValid_ofHash
    · rw [hread, isScript_ofHash]
    · rw [hread, getHash256_ofHash]
  · obtain ⟨hash256, hhash, haddress⟩ := exists_ofHash hs.valid
    refine ⟨hash256, hhash, ?_⟩
    rw [← haddress, toString_ofString hs.valid]
    exact congrArg some (trimmed_cString fun c hc => not_isSpace_of_mem c (hs.base58 c hc))

end NexusAddress

end NexusPool
