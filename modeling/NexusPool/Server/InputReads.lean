import NexusPool.Library.Slices
import NexusPool.Server.Defined

/-!
# What is read of the input

The reads that a handler makes in the buffer it is given and in the data of the packet, each as a
slice. Which reads there are depends on the header and on the real sizes, but `is_valid` looks at
the length field, and nothing compares the two.
-/

namespace NexusPool

open Reactive World

/-! ### Codecs -/

/-- `bytes2uint` on a vector of `n` bytes looks at the size first. -/
def bytes2uintReads (nOffset n : ℕ) : List Slice :=
  if n < nOffset + 4 then [] else [⟨nOffset, nOffset + 4, n⟩]

def bytes2uint64Reads (n : ℕ) : List Slice := bytes2uintReads 0 n ++ bytes2uintReads 4 n

@[simp] theorem allInside_bytes2uintReads (nOffset n : ℕ) :
    Slice.AllInside (bytes2uintReads nOffset n) := by
  unfold bytes2uintReads
  split_ifs with hshort
  · simp
  · simp [Slice.Inside]
    omega

@[simp] theorem allInside_bytes2uint64Reads (n : ℕ) : Slice.AllInside (bytes2uint64Reads n) := by
  simp [bytes2uint64Reads]

/-- `SetBytes` on a vector of `n` bytes: one slice for each word. -/
def BaseUint.setBytesReads (w n : ℕ) : List Slice := Slice.chunks 4 w n

theorem BaseUint.readWords_isSome_iff : ∀ {w : ℕ} {data : Bytes},
    (readWords w data).isSome ↔ w * 4 ≤ data.length
  | 0, data => by simp [readWords]
  | w + 1, b₀ :: b₁ :: b₂ :: b₃ :: rest => by
    have hrest := @readWords_isSome_iff w rest
    simp only [readWords, Option.isSome_map, hrest, List.length_cons]
    omega
  | w + 1, [] => by simp [readWords]
  | w + 1, [_] => by simp [readWords]; omega
  | w + 1, [_, _] => by simp [readWords]; omega
  | w + 1, [_, _, _] => by simp [readWords]; omega

theorem BaseUint.setBytes_isSome_iff {w : ℕ} {data : Bytes} :
    (setBytes w data).isSome ↔ w * 4 ≤ data.length := by
  rw [← readWords_isSome_iff, Option.isSome_iff_exists, Option.isSome_iff_exists]
  constructor
  · rintro ⟨a, ha⟩
    exact ⟨a.pn, setBytes_eq_some_iff.mp ha⟩
  · rintro ⟨words, hwords⟩
    exact ⟨⟨words, length_of_readWords hwords⟩, setBytes_eq_some_iff.mpr hwords⟩

/-- The slices of `deserialize_block` on `n` bytes, from both ends, and the reads in each. -/
def CBlock.deserializeReads (n : ℕ) : List Slice :=
  [⟨0, 4, n⟩] ++ bytes2uintReads 0 4 ++
    [⟨4, 132, n⟩] ++ BaseUint.setBytesReads 32 128 ++
    [⟨132, n - 20, n⟩] ++ BaseUint.setBytesReads 16 (n - 152) ++
    [⟨n - 20, n - 16, n⟩] ++ bytes2uintReads 0 4 ++
    [⟨n - 16, n - 12, n⟩] ++ bytes2uintReads 0 4 ++
    [⟨n - 12, n - 8, n⟩] ++ bytes2uintReads 0 4 ++
    [⟨n - 8, n, n⟩] ++ bytes2uint64Reads 8

theorem CBlock.allInside_deserializeReads (n : ℕ) :
    Slice.AllInside (deserializeReads n) ↔ 216 ≤ n := by
  simp [deserializeReads, BaseUint.setBytesReads, Slice.allInside_chunks, Slice.Inside]
  omega

theorem CBlock.deserialize_isSome_iff [Target] {data : Bytes} :
    (deserialize data).isSome ↔ 216 ≤ data.length := by
  have hprev : (BaseUint.setBytes 32 ((data.drop 4).take 128)).isSome ↔ 132 ≤ data.length := by
    rw [BaseUint.setBytes_isSome_iff, List.length_take, List.length_drop]
    omega
  have hroot : (BaseUint.setBytes 16 ((data.take (data.length - 20)).drop 132)).isSome ↔
      216 ≤ data.length := by
    rw [BaseUint.setBytes_isSome_iff, List.length_drop, List.length_take]
    omega
  unfold deserialize
  split_ifs with hshort
  · simp only [Option.isSome_none, Bool.false_eq_true, false_iff]
    omega
  · rw [Option.isSome_iff_exists, ← hroot]
    constructor
    · rintro ⟨block, h⟩
      simp only [Option.bind_eq_bind, Option.bind_eq_some_iff] at h
      obtain ⟨_, -, hashMerkleRoot, h, -⟩ := h
      rw [h, Option.isSome_some]
    · intro h
      obtain ⟨hashMerkleRoot, hmerkle⟩ := Option.isSome_iff_exists.mp h
      obtain ⟨hashPrevBlock, hprevious⟩ := Option.isSome_iff_exists.mp (hprev.mpr (by omega))
      simp only [hprevious, hmerkle]
      exact ⟨_, rfl⟩

/-! ### The constructor of a packet -/

/-- The constructor reads the header, and if there is more, the length and the rest. `Packet` does
not read an empty buffer. -/
def Packet.constructorReads (peer : Peer) (buffer : Bytes) : List Slice :=
  (if peer = .miner ∧ buffer = [] then [] else [⟨0, 1, buffer.length⟩]) ++
    if buffer.length > 1 then [⟨1, 5, buffer.length⟩, ⟨5, buffer.length, buffer.length⟩] else []

/-- A buffer is a packet unless the constructor reads past its end. -/
theorem Packet.ofBuffer_isSome_iff (peer : Peer) (buffer : Bytes) :
    (ofBuffer peer buffer).isSome ↔ Slice.AllInside (constructorReads peer buffer) := by
  match buffer with
  | [] => cases peer <;> decide
  | [mHeader] => simp [ofBuffer_singleton, constructorReads, Slice.Inside]
  | mHeader :: b :: rest =>
    rw [ofBuffer_cons_cons]
    split_ifs with hshort
    · simp [constructorReads, Slice.Inside] at hshort ⊢
      omega
    · simp [constructorReads, Slice.Inside] at hshort ⊢
      omega

/-- What a handler reads that is given a packet with this header and this data. A null pointer has
no data. -/
def Packet.reads (peer : Peer) (dataReads : UInt8 → Bytes → List Slice) (buffer : Bytes) :
    List Slice :=
  constructorReads peer buffer ++
    match ofBuffer peer buffer with
    | some packet =>
      if packet.isValid peer then dataReads packet.mHeader (packet.mData.getD []) else []
    | none => []

/-- A header alone, or a header, a length field and, unless the length field is zero, as much data
as the handler of this header needs. -/
def Packet.Covers (least : UInt8 → ℕ) (buffer : Bytes) : Prop :=
  buffer.length = 1 ∨ 5 ≤ buffer.length ∧
    (bytes2uint buffer 1 ≠ 0 → ∀ header ∈ buffer.head?, least header ≤ buffer.length - 5)

/-- Whether a packet is valid depends on its length field, and whether it is read inside on the
size of its data. -/
theorem Packet.allInside_reads_iff {peer : Peer} {dataReads : UInt8 → Bytes → List Slice}
    {least : UInt8 → ℕ} {buffer : Bytes} (hbuffer : buffer ≠ [])
    (hdata : ∀ header data, Slice.AllInside (dataReads header data) ↔ least header ≤ data.length)
    (hleast : ∀ header, least header ≠ 0 → header < 128 ∧ (peer = .miner → header ≠ 0)) :
    Slice.AllInside (reads peer dataReads buffer) ↔ Covers least buffer := by
  have hvalid : ∀ p : Packet, least p.mHeader ≠ 0 → (p.isValid peer = true ↔ p.mLength ≠ 0) := by
    intro p hp
    obtain ⟨hheader, hzero⟩ := hleast p.mHeader hp
    have hnot : ¬ 128 ≤ p.mHeader := UInt8.not_le.mpr hheader
    have hpos : 0 < p.mLength ↔ p.mLength ≠ 0 := by
      rw [UInt32.lt_iff_toNat_lt, ne_eq, ← UInt32.toNat_inj]
      simp [Nat.pos_iff_ne_zero]
    simp only [isValid, decide_eq_true_eq, hheader, hnot, gt_iff_lt, hpos]
    tauto
  have hreads : ∀ p : Packet, ofBuffer peer buffer = some p →
      (Slice.AllInside (reads peer dataReads buffer) ↔
        (p.mLength ≠ 0 → least p.mHeader ≤ (p.mData.getD []).length)) := by
    intro p hparse
    have hconstructor := (ofBuffer_isSome_iff peer buffer).mp (by rw [hparse]; rfl)
    simp only [reads, hparse, Slice.allInside_append, hconstructor, true_and]
    by_cases hp : least p.mHeader = 0
    · split_ifs <;> simp [hdata, hp]
    · rw [← hvalid p hp]
      split_ifs with h <;> simp [hdata, h]
  match buffer, hbuffer with
  | [mHeader], _ =>
    rw [hreads _ (ofBuffer_singleton peer mHeader)]
    simp [Covers]
  | mHeader :: b :: rest, _ =>
    have hlength : bytes2uint (mHeader :: b :: rest) 1 = bytes2uint (b :: rest) 0 := rfl
    have hparse := ofBuffer_cons_cons peer mHeader b rest
    split_ifs at hparse with hshort
    · have hnone := mt (ofBuffer_isSome_iff peer (mHeader :: b :: rest)).mpr (by simp [hparse])
      simp only [reads, Slice.allInside_append, hnone, false_and, false_iff, Covers,
        not_or, not_and]
      simp at hshort ⊢
      omega
    · rw [hreads _ hparse, Covers, hlength]
      simp only [List.length_cons] at hshort
      have hlong : 3 ≤ rest.length := by omega
      simp [hlong]

/-! ### Packets of the wallet -/

namespace DaemonConnection

/-- The reads in the data of a packet with this header. -/
def packetReads (mHeader : UInt8) (data : Bytes) : List Slice :=
  if mHeader = DaemonPacket.blockHeight then bytes2uintReads 0 data.length
  else if mHeader = DaemonPacket.blockReward then bytes2uint64Reads data.length
  else if mHeader = DaemonPacket.orphanBlock then BaseUint.setBytesReads 32 data.length
  else if mHeader = DaemonPacket.goodBlock then BaseUint.setBytesReads 32 data.length
  else if mHeader = DaemonPacket.blockData then CBlock.deserializeReads data.length
  else []

/-- All reads of `process_data`, which are the same in every state. -/
def reads (receiveBuffer : Bytes) : List Slice := Packet.reads .wallet packetReads receiveBuffer

def leastData (mHeader : UInt8) : ℕ :=
  if mHeader = DaemonPacket.blockData then 216
  else if mHeader = DaemonPacket.orphanBlock ∨ mHeader = DaemonPacket.goodBlock then 128
  else 0

theorem allInside_packetReads_iff (mHeader : UInt8) (data : Bytes) :
    Slice.AllInside (packetReads mHeader data) ↔ leastData mHeader ≤ data.length := by
  unfold packetReads
  split_ifs with hheight hreward horphan hgood hblock
  · have hleast : leastData mHeader = 0 := by rw [hheight]; decide
    simp [hleast]
  · have hleast : leastData mHeader = 0 := by rw [hreward]; decide
    simp [hleast]
  · have hleast : leastData mHeader = 128 := by rw [horphan]; decide
    rw [hleast, BaseUint.setBytesReads, Slice.allInside_chunks]
  · have hleast : leastData mHeader = 128 := by rw [hgood]; decide
    rw [hleast, BaseUint.setBytesReads, Slice.allInside_chunks]
  · have hleast : leastData mHeader = 216 := by rw [hblock]; decide
    rw [hleast, CBlock.allInside_deserializeReads]
  · have hleast : leastData mHeader = 0 := by simp [leastData, horphan, hgood, hblock]
    simp [hleast]

/-- What the wallet sends is read inside exactly if the data is as long as its handler needs. -/
theorem walletInput_readInside_iff {receiveBuffer : Bytes} (hbuffer : receiveBuffer ≠ []) :
    Slice.AllInside (reads receiveBuffer) ↔ Packet.Covers leastData receiveBuffer := by
  apply Packet.allInside_reads_iff hbuffer allInside_packetReads_iff
  intro header hleast
  refine ⟨?_, nofun⟩
  unfold leastData at hleast
  split_ifs at hleast with hblock hhash
  · rw [hblock]
    decide
  · rcases hhash with rfl | rfl <;> decide
  · exact absurd rfl hleast

/-- `GOOD_BLOCK` with the data of a hash. -/
def goodBlockBuffer : Bytes := [6, 0, 0, 0, 128] ++ List.replicate 128 1

theorem goodBlockBuffer_readInside : Slice.AllInside (reads goodBlockBuffer) := by
  have hlength : goodBlockBuffer.length = 133 := by simp [goodBlockBuffer]
  have hbuffer : goodBlockBuffer ≠ [] := List.cons_ne_nil _ _
  refine (walletInput_readInside_iff hbuffer).mpr (.inr ⟨by omega, fun _ header hheader => ?_⟩)
  have hgood : 6 = header := by simpa [goodBlockBuffer] using hheader
  rw [hlength, ← hgood]
  decide

/-- The header and the length of an `ORPHAN_BLOCK`, whose data is not there yet. -/
theorem orphanHeader_outside : ¬ ∀ receiveBuffer : Bytes, receiveBuffer ≠ [] →
    Slice.AllInside (reads receiveBuffer) := by
  intro h
  have hinside := h [7, 0, 0, 0, 128] (List.cons_ne_nil _ _)
  revert hinside
  decide

/-- Where the handler of a hash is defined, the hash was read. -/
theorem setBytes_of_handlePacket [Platform] {w w' : World} {packet : Packet}
    {out : List Output} {u : Unit}
    (header : packet.mHeader = DaemonPacket.orphanBlock ∨ packet.mHeader = DaemonPacket.goodBlock)
    (h : handlePacket packet w = some (u, w', out)) :
    ∃ data, packet.mData = some data ∧ (BaseUint.setBytes 32 data).isSome := by
  rcases header with header | header
  · simp only [handlePacket, header] at h
    rw [if_neg (by decide), if_neg (by decide), if_neg (by decide), if_neg (by decide),
      if_neg (by decide), if_pos trivial] at h
    simp only [handleOrphanBlock, Action.bind_eq_some_iff, Action.ofOption_eq_some_iff] at h
    obtain ⟨data, _, _, _, ⟨hdata, rfl, rfl⟩, ⟨hashOrphan, _, _, _, ⟨hread, -, -⟩, -⟩, -⟩ := h
    exact ⟨data, hdata, Option.isSome_of_eq_some hread⟩
  · simp only [handlePacket, header] at h
    rw [if_neg (by decide), if_neg (by decide), if_neg (by decide), if_neg (by decide),
      if_neg (by decide), if_neg (by decide), if_pos trivial] at h
    simp only [handleGoodBlock, Action.bind_eq_some_iff, Action.ofOption_eq_some_iff] at h
    obtain ⟨data, _, _, _, ⟨hdata, rfl, rfl⟩, ⟨hashBlock, _, _, _, ⟨hread, -, -⟩, -⟩, -⟩ := h
    exact ⟨data, hdata, Option.isSome_of_eq_some hread⟩

/-- Where `process_data` is defined, it has read inside. -/
theorem allInside_of_processData [Platform] {w w' : World} {receiveBuffer : Bytes}
    {out : List Output}
    {u : Unit} (h : processData receiveBuffer w = some (u, w', out)) :
    Slice.AllInside (reads receiveBuffer) := by
  simp only [processData, Action.bind_eq_some_iff, Action.ofOption_eq_some_iff] at h
  obtain ⟨packet, _, _, _, ⟨hparse, rfl, rfl⟩, h, rfl⟩ := h
  have hconstructor := (Packet.ofBuffer_isSome_iff .wallet receiveBuffer).mp (by rw [hparse]; rfl)
  simp only [reads, Packet.reads, hparse, Slice.allInside_append, hconstructor, true_and]
  split_ifs at h ⊢ with hvalid hblock
  · simp only [Action.bind_eq_some_iff, Action.ofOption_eq_some_iff, handleBlockData] at h
    obtain ⟨data, _, _, _, ⟨hdata, rfl, rfl⟩,
      ⟨_, _, _, _, ⟨block, _, _, _, ⟨hread, -, -⟩, -⟩, -⟩, -⟩ := h
    have hlong := CBlock.deserialize_isSome_iff.mp (Option.isSome_of_eq_some hread)
    rw [allInside_packetReads_iff, hblock, hdata]
    exact hlong
  · simp only [Action.bind_eq_some_iff] at h
    obtain ⟨_, _, _, _, hhandle, -⟩ := h
    rw [allInside_packetReads_iff]
    by_cases hhash : packet.mHeader = DaemonPacket.orphanBlock ∨
      packet.mHeader = DaemonPacket.goodBlock
    · obtain ⟨data, hdata, hread⟩ := setBytes_of_handlePacket hhash hhandle
      have hlong := BaseUint.setBytes_isSome_iff.mp hread
      rw [leastData, if_neg hblock, if_pos hhash, hdata]
      exact hlong
    · rw [leastData, if_neg hblock, if_neg hhash]
      exact Nat.zero_le _
  · simp

theorem readable_iff_allInside [Target] {receiveBuffer : Bytes} {packet : Packet}
    (hparse : Packet.ofBuffer .wallet receiveBuffer = some packet)
    (hvalid : packet.isValid .wallet = true) : packet.readable ↔
      Slice.AllInside (packetReads packet.mHeader (packet.mData.getD [])) := by
  have hdata := Packet.exists_mData hparse hvalid
  rw [allInside_packetReads_iff, leastData, Packet.readable]
  split_ifs with hblock hhash
  · obtain ⟨data, hdata⟩ := hdata (by rw [hblock]; decide)
    have hother : DaemonPacket.blockData ∉ [DaemonPacket.orphanBlock, DaemonPacket.goodBlock] := by
      decide
    simp [hblock, hother, hdata, ← Option.isSome_iff_exists, CBlock.deserialize_isSome_iff]
  · obtain ⟨data, hdata⟩ := hdata (by rcases hhash with h | h <;> rw [h] <;> decide)
    simp [hblock, hhash, hdata, ← Option.isSome_iff_exists, BaseUint.setBytes_isSome_iff]
  · simp [hblock, hhash]

/-- If nothing else is undefined, `process_data` is defined exactly if it reads inside. -/
theorem processData_defined_iff_allInside [Platform] {w : World} {receiveBuffer : Bytes}
    (hnew : w.daemon.mNewBlock = false) (hopen : w.listsClosed = false)
    (hconnection : w.daemon.mConnection = true) :
    (processData receiveBuffer).Defined w ↔ Slice.AllInside (reads receiveBuffer) := by
  rw [processData_defined hnew, reads, Packet.reads, Slice.allInside_append,
    ← Packet.ofBuffer_isSome_iff]
  cases hparse : Packet.ofBuffer .wallet receiveBuffer with
  | none => simp
  | some packet =>
    by_cases hvalid : packet.isValid .wallet = true
    · simp [hvalid, hopen, hconnection, readable_iff_allInside hparse hvalid]
    · simp [hvalid]

end DaemonConnection

/-! ### Packets of a miner -/

namespace PoolConnection

/-- `SUBMIT_PPS`: all but the last eight bytes and all but the first eight, each for a double. -/
def ppsReads (n : ℕ) : List Slice :=
  [⟨0, n - 8, n⟩] ++ bytes2uint64Reads (n - 8) ++ [⟨8, n, n⟩] ++ bytes2uint64Reads (n - 8)

/-- The block that the hash in a share leads to. -/
def correlatedBlock (pool : PoolConnection) (data : Bytes) : Option CBlock := do
  let hashPrimeOrigin ← BaseUint.setBytes 32 (data.take (data.length - 8))
  pool.mBlocksRequested[hashPrimeOrigin]?

/-- `SUBMIT_SHARE`: the hash, and once its block is found and is of the current height, the
nonce. -/
def shareReads (pool : PoolConnection) (w : World) (data : Bytes) : List Slice :=
  let n := data.length
  [⟨0, n - 8, n⟩] ++ BaseUint.setBytesReads 32 (n - 8) ++
    if (pool.correlatedBlock data).any (·.nHeight = w.registry.mBestHeight) then
      [⟨n - 8, n, n⟩] ++ bytes2uint64Reads 8
    else []

/-- The reads in the data of a packet with this header. A login reads the address as a whole. -/
def packetReads (pool : PoolConnection) (w : World) (mHeader : UInt8) (data : Bytes) : List Slice :=
  if mHeader = Packet.login then
    if pool.mLoggedIn then [] else [⟨0, data.length, data.length⟩]
  else if ¬ pool.mLoggedIn then []
  else if mHeader = Packet.submitPps then ppsReads data.length
  else if mHeader = Packet.submitShare then pool.shareReads w data
  else []

/-- All reads of `process_data` on this connection. The DDOS filter reads nothing of its own, and
its ban does not keep the packet from being handled. -/
def reads (pool : PoolConnection) (w : World) (receiveBuffer : Bytes) : List Slice :=
  Packet.reads .miner (pool.packetReads w) receiveBuffer

def leastData (mHeader : UInt8) : ℕ :=
  if mHeader = Packet.submitShare then 136 else if mHeader = Packet.submitPps then 8 else 0

theorem allInside_ppsReads (n : ℕ) : Slice.AllInside (ppsReads n) ↔ 8 ≤ n := by
  simp [ppsReads, Slice.Inside]

theorem allInside_shareReads (pool : PoolConnection) (w : World) (data : Bytes) :
    Slice.AllInside (pool.shareReads w data) ↔ 136 ≤ data.length := by
  have hhash : Slice.AllInside (BaseUint.setBytesReads 32 (data.length - 8)) ↔
      136 ≤ data.length := by
    rw [BaseUint.setBytesReads, Slice.allInside_chunks]
    omega
  simp only [shareReads, Slice.allInside_append, hhash]
  constructor
  · rintro ⟨⟨-, hlong⟩, -⟩
    exact hlong
  · intro hlong
    refine ⟨⟨?_, hlong⟩, ?_⟩
    · simp [Slice.Inside]
      omega
    · split_ifs
      · simp [Slice.Inside]
        omega
      · simp

theorem allInside_packetReads_iff {pool : PoolConnection}
    (hlogged : pool.mLoggedIn = true) (w : World)
    (mHeader : UInt8) (data : Bytes) :
    Slice.AllInside (pool.packetReads w mHeader data) ↔ leastData mHeader ≤ data.length := by
  unfold packetReads
  simp only [hlogged, not_true_eq_false, if_true, if_false]
  split_ifs with hlogin hpps hshare
  · have hleast : leastData mHeader = 0 := by rw [hlogin]; decide
    simp [hleast]
  · have hleast : leastData mHeader = 8 := by rw [hpps]; decide
    rw [hleast, allInside_ppsReads]
  · have hleast : leastData mHeader = 136 := by rw [hshare]; decide
    rw [hleast, allInside_shareReads]
  · have hleast : leastData mHeader = 0 := by simp [leastData, hpps, hshare]
    simp [hleast]

/-- What a miner that is logged in sends is read inside exactly if the data is as long as its
handler needs. -/
theorem minerInput_readInside_iff {pool : PoolConnection}
    (hlogged : pool.mLoggedIn = true) (w : World)
    {receiveBuffer : Bytes} (hbuffer : receiveBuffer ≠ []) :
    Slice.AllInside (pool.reads w receiveBuffer) ↔ Packet.Covers leastData receiveBuffer := by
  apply Packet.allInside_reads_iff hbuffer (allInside_packetReads_iff hlogged w)
  intro header hleast
  unfold leastData at hleast
  split_ifs at hleast with hshare hpps
  · rw [hshare]
    decide
  · rw [hpps]
    decide
  · exact absurd rfl hleast

def admitted : PoolConnection := { PoolConnection.new [1] ⟨0, 0, true⟩ with mLoggedIn := true }

def shareBuffer : Bytes := [1, 0, 0, 0, 136] ++ List.replicate 136 1

theorem shareBuffer_readInside : Slice.AllInside (admitted.reads World.fresh shareBuffer) := by
  have hlength : shareBuffer.length = 141 := by simp [shareBuffer]
  have hbuffer : shareBuffer ≠ [] := List.cons_ne_nil _ _
  refine (minerInput_readInside_iff rfl World.fresh hbuffer).mpr
    (.inr ⟨by omega, fun _ header hheader => ?_⟩)
  have hshare : 1 = header := by simpa [shareBuffer] using hheader
  rw [hlength, ← hshare]
  decide

/-- The header and the length of a share, whose data is not there yet. -/
theorem shareHeader_outside : ¬ ∀ (pool : PoolConnection) (w : World) (receiveBuffer : Bytes),
    pool.mLoggedIn = true → receiveBuffer ≠ [] → Slice.AllInside (pool.reads w receiveBuffer) := by
  intro h
  have hinside := h admitted World.fresh [1, 0, 0, 0, 136] rfl (List.cons_ne_nil _ _)
  revert hinside
  decide

theorem readShare_isSome_iff [Target] {data : Bytes} :
    (readShare data).isSome ↔ 136 ≤ data.length := by
  unfold readShare
  split_ifs with hshort
  · simp only [Option.isSome_none, Bool.false_eq_true, false_iff]
    omega
  · rw [Option.isSome_map, BaseUint.setBytes_isSome_iff, List.length_take]
    omega

/-- Where the handler of a request is defined, there was enough data. -/
theorem leastData_le_of_handleRequest [Platform] {w w' : World} {i : ℕ} {packet : Packet}
    {out : List Output} {u : Unit} (h : handleRequest i packet w = some (u, w', out)) :
    leastData packet.mHeader ≤ (packet.mData.getD []).length := by
  unfold handleRequest at h
  split_ifs at h with hblock hbalance hpayout hping hpps hshare
  · rw [hblock]
    exact Nat.zero_le _
  · rw [hbalance]
    exact Nat.zero_le _
  · rw [hpayout]
    exact Nat.zero_le _
  · rw [hping]
    exact Nat.zero_le _
  · simp only [handleSubmitPps, Action.bind_eq_some_iff, Action.ofOption_eq_some_iff,
      Action.require_eq_some_iff] at h
    obtain ⟨data, _, _, _, ⟨hdata, rfl, rfl⟩, ⟨_, _, _, _, ⟨hlong, -, -⟩, -⟩, -⟩ := h
    rw [hpps, hdata]
    exact hlong
  · simp only [handleSubmitShare, Action.bind_eq_some_iff, Action.ofOption_eq_some_iff,
      self_eq_some_iff] at h
    obtain ⟨data, _, _, _, ⟨hdata, rfl, rfl⟩, ⟨_, _, _, _, ⟨-, rfl, rfl⟩,
      ⟨share, _, _, _, ⟨hread, -, -⟩, -⟩, -⟩, -⟩ := h
    rw [hshare, hdata]
    exact readShare_isSome_iff.mp (Option.isSome_of_eq_some hread)
  · rw [leastData, if_neg hshare, if_neg hpps]
    exact Nat.zero_le _

theorem allInside_of_processData [Platform] {w w' : World} {i : ℕ} {pool : PoolConnection}
    {receiveBuffer : Bytes} {out : List Output} {u : Unit} (hself : w.pools[i]? = some pool)
    (h : processData i receiveBuffer w = some (u, w', out)) :
    Slice.AllInside (pool.reads w receiveBuffer) := by
  obtain ⟨packet, hparse, hhandle⟩ := processData_eq_some h
  have hconstructor := (Packet.ofBuffer_isSome_iff .miner receiveBuffer).mp (by rw [hparse]; rfl)
  simp only [reads, Packet.reads, hparse, Slice.allInside_append, hconstructor, true_and]
  obtain ⟨hinvalid, -⟩ | ⟨hvalid, pool', bans, rest, hself', -, -, hrest⟩ := hhandle
  · simp [hinvalid]
  · cases hself.symm.trans hself'
    rw [if_pos hvalid]
    by_cases hlogged : pool.mLoggedIn = true
    · rw [allInside_packetReads_iff hlogged]
      split_ifs at hrest with hlogin
      · rw [hlogin]
        exact Nat.zero_le _
      · exact leastData_le_of_handleRequest hrest
    · unfold packetReads
      split_ifs <;> simp [Slice.Inside]

end PoolConnection

end NexusPool
