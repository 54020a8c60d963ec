import NexusPool.Hash.Templates
import NexusPool.Mining.Block

/-!
# The hash of a block

`GetHash` hashes the memory of the block from its first field up to `nBits`, which has no gaps,
and leaves the nonce out.
-/

namespace NexusPool

open BitPadding

def memoryOfWord (word : UInt32) : Bytes := (uint2bytes word).reverse

@[simp] theorem length_memoryOfWord (word : UInt32) : (memoryOfWord word).length = 4 := rfl

theorem memoryOfWord_injective : Function.Injective memoryOfWord := by
  intro a b h
  have hbytes : uint2bytes a = uint2bytes b := List.reverse_injective h
  have ha := bytes2uint_uint2bytes a []
  have hb := bytes2uint_uint2bytes b []
  rw [← hbytes, ha] at hb
  exact hb

namespace BaseUint

variable {w : ℕ}

@[simp] theorem length_memory (a : BaseUint w) : a.memory.length = 4 * w := by
  simp [memory, List.length_flatMap, a.width]
  ring

theorem flatMap_memoryOfWord_injective {words words' : List UInt32}
    (hlength : words.length = words'.length)
    (h : words.flatMap memoryOfWord = words'.flatMap memoryOfWord) : words = words' := by
  induction words generalizing words' with
  | nil => exact (List.eq_nil_of_length_eq_zero hlength.symm).symm
  | cons word words ih =>
    cases words' with
    | nil => simp at hlength
    | cons word' words' =>
      simp only [List.flatMap_cons] at h
      obtain ⟨hword, hwords⟩ := List.append_inj h rfl
      rw [memoryOfWord_injective hword, ih (by simpa using hlength) hwords]

theorem memory_injective : Function.Injective (memory : BaseUint w → Bytes) := fun a b h =>
  ext (flatMap_memoryOfWord_injective (a.width.trans b.width.symm) h)

theorem memoryWords_of_length : ∀ {n : ℕ} {bytes : Bytes}, bytes.length = 4 * n →
    ∃ words, memoryWords n bytes = some words ∧ words.flatMap memoryOfWord = bytes
  | 0, bytes, h => ⟨[], rfl, (List.eq_nil_of_length_eq_zero h).symm⟩
  | n + 1, b₀ :: b₁ :: b₂ :: b₃ :: rest, h => by
    have hrest : rest.length = 4 * n := by
      simp only [List.length_cons] at h
      omega
    obtain ⟨words, hwords, hbytes⟩ := memoryWords_of_length hrest
    refine ⟨bytes2uint [b₃, b₂, b₁, b₀] 0 :: words, by simp [memoryWords, hwords], ?_⟩
    rw [List.flatMap_cons, hbytes, memoryOfWord, uint2bytes_bytes2uint]
    rfl
  | n + 1, [], h | n + 1, [_], h | n + 1, [_, _], h | n + 1, [_, _, _], h => by
    simp only [List.length_cons, List.length_nil] at h
    omega

theorem ofMemory_of_length {bytes : Bytes} (h : bytes.length = 4 * w) :
    ∃ a, ofMemory w bytes = some a ∧ a.memory = bytes := by
  obtain ⟨words, hwords, hbytes⟩ := memoryWords_of_length h
  refine ⟨⟨words, length_of_memoryWords hwords⟩, ?_, hbytes⟩
  unfold ofMemory
  split
  · rename_i words' hwords'
    rw [hwords] at hwords'
    cases hwords'
    rfl
  · rename_i hnone
    rw [hwords] at hnone
    cases hnone

end BaseUint

/-! ### The block -/

namespace BlockHeader

/-- From `BEGIN(nVersion)` to `END(nBits)`. -/
def memory (header : BlockHeader) : Bytes :=
  memoryOfWord header.nVersion ++ header.hashPrevBlock.memory ++ header.hashMerkleRoot.memory ++
    memoryOfWord header.nChannel ++ memoryOfWord header.nHeight ++ memoryOfWord header.nBits

@[simp] theorem length_memory (header : BlockHeader) : header.memory.length = 208 := by
  simp [memory]

/-- Headers that differ in any field are hashed from different memory. -/
theorem memory_injective : Function.Injective memory := by
  intro header header' h
  simp only [memory] at h
  obtain ⟨h, hbits⟩ := List.append_inj' h rfl
  obtain ⟨h, hheight⟩ := List.append_inj' h rfl
  obtain ⟨h, hchannel⟩ := List.append_inj' h rfl
  obtain ⟨h, hroot⟩ := List.append_inj' h (by simp)
  obtain ⟨hversion, hprev⟩ := List.append_inj' h (by simp)
  cases header
  cases header'
  simp only [BlockHeader.mk.injEq]
  exact ⟨memoryOfWord_injective hversion, BaseUint.memory_injective hprev,
    BaseUint.memory_injective hroot, memoryOfWord_injective hchannel,
    memoryOfWord_injective hheight, memoryOfWord_injective hbits⟩

def hash (stack : HashStack) (header : BlockHeader) : Option Uint1024 :=
  (sk1024 stack header.memory).bind (BaseUint.ofMemory 32)

end BlockHeader

def CBlock.getPrime (stack : HashStack) (block : CBlock) : Option Uint1024 :=
  (block.hash stack).map (· + .ofUInt64 30 block.nNonce)

/-- The hash is there whatever the stack holds, and depends on the memory of the header alone;
that memory tells all headers apart. The nonce comes in by addition afterwards. -/
theorem blockHash_eq (block : CBlock) :
    (∃ hash : Uint1024, (∀ stack, block.hash stack = some hash) ∧
      hash.memory = skeinKeccak threefish1024 72 1024 (bitsBelow 5) block.memory ∧
      ∀ stack, ∃ prime, block.getPrime stack = some prime ∧
        prime.toNat = (hash.toNat + block.nNonce.toNat) % 2 ^ 1024) ∧
    ∀ other : CBlock, other.memory = block.memory → other.toBlockHeader = block.toBlockHeader := by
  have hlength : (skeinKeccak threefish1024 72 1024 (bitsBelow 5) block.memory).length = 4 * 32 :=
    Sponge.length_squeeze (by decide) (by decide) (Nat.zero_le _)
  obtain ⟨hash, hread, hmemory⟩ := BaseUint.ofMemory_of_length hlength
  have hhash : ∀ stack, block.hash stack = some hash := by
    intro stack
    rw [BlockHeader.hash, sk1024_eq, Option.bind_some, hread]
  refine ⟨⟨hash, hhash, hmemory, fun stack => ⟨hash + .ofUInt64 30 block.nNonce, ?_, ?_⟩⟩,
    fun other h => BlockHeader.memory_injective h⟩
  · rw [CBlock.getPrime, hhash stack]
    rfl
  · rw [BaseUint.toNat_add, BaseUint.toNat_ofUInt64]

end NexusPool
