import NexusPool.Hash.BaseUint

/-!
# LLP packets

`Packet` is what pool and miner exchange, `Daemon_packet` what pool and wallet exchange.
Both are a header byte and, for headers below 128, a length and data. They are parsed from
whatever bytes a read returned; the length field is not compared with the data.
-/

namespace NexusPool

/-- The two kinds of remote end. The wallet's packets are parsed by `Daemon_packet`. -/
inductive Peer
  | miner
  | wallet
  deriving DecidableEq

/-- `mData` is a shared pointer, null where no data was read. -/
structure Packet where
  mHeader : UInt8
  mLength : UInt32
  mData : Option Bytes
  deriving DecidableEq

namespace Packet

/-! ### Headers of the miner's protocol -/

def blockData : UInt8 := 0
def submitShare : UInt8 := 1
def accountBalance : UInt8 := 3
def pendingPayout : UInt8 := 4
def submitPps : UInt8 := 5
def login : UInt8 := 8
def getBlock : UInt8 := 129
def newBlock : UInt8 := 130
def getBalance : UInt8 := 131
def getPayout : UInt8 := 132
def loginSkminerSuccess : UInt8 := 134
def loginSkminerFail : UInt8 := 135
def accept : UInt8 := 200
def reject : UInt8 := 201
def block : UInt8 := 202
def stale : UInt8 := 203
def ping : UInt8 := 253

/-! ### Parsing and sending -/

/-- The constructor from a received buffer. A buffer of two to four bytes is read past its
end, as is an empty one by `Daemon_packet`. -/
def ofBuffer : Peer → Bytes → Option Packet
  | .miner, [] => some ⟨255, 0, none⟩
  | .wallet, [] => none
  | _, [mHeader] => some ⟨mHeader, 0, none⟩
  | _, mHeader :: rest =>
    if rest.length < 4 then none else some ⟨mHeader, bytes2uint rest 0, some (rest.drop 4)⟩

/-- `Packet::is_valid` has a case more than `Daemon_packet::is_valid`, for an empty login. -/
def isValid (peer : Peer) (p : Packet) : Bool :=
  (peer = .miner ∧ p.mHeader = 0 ∧ p.mLength = 0) ∨ (p.mHeader < 128 ∧ p.mLength > 0) ∨
    (p.mHeader ≥ 128 ∧ p.mHeader < 255 ∧ p.mLength = 0)

/-- Headers from 128 on are sent alone. Below, the data pointer is dereferenced. -/
def getBytes (p : Packet) : Option Bytes :=
  if p.mHeader < 128 then
    p.mData.map fun data => p.mHeader :: uint2bytes p.mLength ++ data
  else some [p.mHeader]

def getPacket (header : UInt8) : Packet := ⟨header, 0, none⟩

/-- A packet with data, its length filled in. -/
def withData (header : UInt8) (data : Bytes) : Packet := ⟨header, data.length.toUInt32, some data⟩

/-- The height goes with a header from 128 on, so it is not sent. -/
def getHeight (height : UInt32) : Packet := withData newBlock (uint2bytes height)

theorem ofBuffer_singleton (peer : Peer) (mHeader : UInt8) :
    ofBuffer peer [mHeader] = some ⟨mHeader, 0, none⟩ := by
  cases peer <;> rfl

theorem ofBuffer_cons_cons (peer : Peer) (mHeader b : UInt8) (rest : Bytes) :
    ofBuffer peer (mHeader :: b :: rest) = if (b :: rest).length < 4 then none
      else some ⟨mHeader, bytes2uint (b :: rest) 0, some ((b :: rest).drop 4)⟩ := by
  cases peer <;> rfl

/-! ### Well-formed packets -/

/-- Data goes with headers below 128 only, and the length is that of the data. -/
def WellFormed (p : Packet) : Prop :=
  if p.mHeader < 128 then ∃ data, p.mData = some data ∧ p.mLength.toNat = data.length
  else p.mData = none ∧ p.mLength = 0

/-- The bytes of a well-formed packet on the wire. -/
def wire (p : Packet) : Bytes := p.getBytes.getD []

/-- What is sent of a packet is parsed as that packet, if all of it is sent. The length field need
not be right. -/
theorem ofBuffer_of_getBytes (peer : Peer) {p : Packet} {bytes : Bytes}
    (hbytes : p.getBytes = some bytes)
    (h : p.mHeader < 128 ∨ p.mData = none ∧ p.mLength = 0) : ofBuffer peer bytes = some p := by
  obtain ⟨mHeader, mLength, mData⟩ := p
  by_cases hheader : mHeader < 128
  · simp only [getBytes, hheader, if_true, Option.map_eq_some_iff] at hbytes
    obtain ⟨data, rfl, rfl⟩ := hbytes
    have hlength : bytes2uint (uint2bytes mLength ++ data) 0 = mLength :=
      bytes2uint_uint2bytes mLength data
    have hlong : ¬ (uint2bytes mLength ++ data).length < 4 := by simp
    have hdrop : (uint2bytes mLength ++ data).drop 4 = data := List.drop_left' rfl
    rw [List.cons_append, ofBuffer]
    · rw [if_neg hlong, hlength, hdrop]
    · simp [uint2bytes]
  · obtain ⟨rfl, rfl⟩ := h.resolve_left hheader
    simp only [getBytes, hheader, if_false, Option.some.injEq] at hbytes
    rw [← hbytes, ofBuffer_singleton]

/-- A buffer that holds one well-formed packet is parsed as that packet. -/
theorem ofBuffer_wire (peer : Peer) {p : Packet} (h : p.WellFormed) :
    ofBuffer peer p.wire = some p := by
  by_cases hheader : p.mHeader < 128
  · obtain ⟨data, hdata, -⟩ : ∃ data, p.mData = some data ∧ _ := by
      simpa [WellFormed, hheader] using h
    have hbytes : p.getBytes = some p.wire := by simp [wire, getBytes, hheader, hdata]
    exact ofBuffer_of_getBytes peer hbytes (.inl hheader)
  · have hbytes : p.getBytes = some p.wire := by simp [wire, getBytes, hheader]
    exact ofBuffer_of_getBytes peer hbytes (.inr (by simpa [WellFormed, hheader] using h))

/-- What is parsed as a well-formed packet is the encoding of that packet. -/
theorem wire_of_ofBuffer {peer : Peer} {buffer : Bytes} {p : Packet} (hbuffer : buffer ≠ [])
    (hparse : ofBuffer peer buffer = some p) (h : p.WellFormed) : p.wire = buffer := by
  match buffer, hbuffer with
  | [mHeader], _ =>
    cases (ofBuffer_singleton peer mHeader).symm.trans hparse
    by_cases hheader : mHeader < 128
    · simp [WellFormed, hheader] at h
    · simp [wire, getBytes, hheader]
  | mHeader :: b :: rest, _ =>
    rw [ofBuffer_cons_cons] at hparse
    split_ifs at hparse with hlen
    cases hparse
    by_cases hheader : mHeader < 128
    · match b, rest, hlen with
      | b₀, b₁ :: b₂ :: b₃ :: data, _ =>
        have hword := uint2bytes_bytes2uint b₀ b₁ b₂ b₃ data
        simp [wire, getBytes, hheader, hword]
      | _, [], hlen => simp at hlen
      | _, [_], hlen => simp at hlen
      | _, [_, _], hlen => simp at hlen
    · simp [WellFormed, hheader] at h

end Packet

/-! ### The wallet's protocol -/

namespace DaemonPacket

def blockData : UInt8 := 0
def submitBlockHeader : UInt8 := 1
def blockHeight : UInt8 := 2
def setChannelHeader : UInt8 := 3
def blockReward : UInt8 := 4
def setCoinbaseHeader : UInt8 := 5
def goodBlock : UInt8 := 6
def orphanBlock : UInt8 := 7
def checkBlockHeader : UInt8 := 64
def getBlockHeader : UInt8 := 129
def getHeightHeader : UInt8 := 130
def getRewardHeader : UInt8 := 131
def getRoundHeader : UInt8 := 133
def good : UInt8 := 200
def fail : UInt8 := 201
def coinbaseSet : UInt8 := 202
def coinbaseFail : UInt8 := 203
def newRound : UInt8 := 204

def getBlock : Packet := .getPacket getBlockHeader
def getHeight : Packet := .getPacket getHeightHeader
def getReward : Packet := .getPacket getRewardHeader
def getRound : Packet := .getPacket getRoundHeader

def setChannel (channel : UInt32) : Packet := .withData setChannelHeader (uint2bytes channel)

def setCoinbase (coinbase : Bytes) : Packet := .withData setCoinbaseHeader coinbase

def checkBlock (hashBlock : Uint1024) : Packet := .withData checkBlockHeader hashBlock.getBytes

def submitBlock (hashMerkleRoot : Uint512) (nonce : UInt64) : Packet :=
  .withData submitBlockHeader (hashMerkleRoot.getBytes ++ uint2bytes64 nonce)

end DaemonPacket

end NexusPool
