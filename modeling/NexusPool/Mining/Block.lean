import NexusPool.Hash.BaseUint

/-!
# Mining blocks

`LLP::CBlock`, the block a miner works on, and its two encodings: the wallet's
`BLOCK_DATA` payload, which `Daemon_connection::deserialize_block` cuts up from both ends,
and the payload `Packet::serialize_block` makes of it for the miner.
-/

namespace NexusPool

/-- The fields that the block hash covers, from `nVersion` to `nBits`. -/
structure BlockHeader where
  nVersion : UInt32
  hashPrevBlock : Uint1024
  hashMerkleRoot : Uint512
  nChannel : UInt32
  nHeight : UInt32
  nBits : UInt32
  deriving DecidableEq

structure CBlock extends BlockHeader where
  nNonce : UInt64
  deriving DecidableEq

namespace CBlock

/-! ### The wallet's encoding -/

section Decoding

variable [Target]

/-- `deserialize_block`. A payload that is too short for a slice, or whose merkle root slice
is too short for the hash, is read out of range. -/
def deserialize (data : Bytes) : Option CBlock :=
  if data.length < 152 then none
  else do
    let hashPrevBlock ← BaseUint.setBytes 32 ((data.drop 4).take 128)
    let hashMerkleRoot ← BaseUint.setBytes 16 ((data.take (data.length - 20)).drop 132)
    let tail := data.drop (data.length - 20)
    return {
      nVersion := bytes2uint (data.take 4) 0
      hashPrevBlock := hashPrevBlock
      hashMerkleRoot := hashMerkleRoot
      nChannel := bytes2uint (tail.take 4) 0
      nHeight := bytes2uint ((tail.drop 4).take 4) 0
      nBits := bytes2uint ((tail.drop 8).take 4) 0
      nNonce := bytes2uint64 (tail.drop 12) 0 }

theorem getBytes_hashMerkleRoot {data : Bytes} {block : CBlock} (h : deserialize data = some block)
    (hlen : data.length = 216) : block.hashMerkleRoot.getBytes = (data.drop 132).take 64 := by
  have hlong : ¬ data.length < 152 := by omega
  simp only [deserialize, if_neg hlong, Option.bind_eq_bind, Option.bind_eq_some_iff,
    Option.pure_def, Option.some.injEq] at h
  obtain ⟨hashPrevBlock, -, hashMerkleRoot, hroot, rfl⟩ := h
  have hslice := BaseUint.getBytes_of_setBytes hroot
  rw [hslice, hlen, List.drop_take, List.take_take]
  rfl

end Decoding

/-! ### The miner's encoding -/

/-- `Packet::serialize_block`, given the hash of the block. -/
def serialize (hash : Uint1024) (block : CBlock) (minShare : UInt32) : Bytes :=
  hash.getBytes ++ uint2bytes minShare ++ uint2bytes block.nBits ++ uint2bytes block.nHeight

end CBlock

end NexusPool
