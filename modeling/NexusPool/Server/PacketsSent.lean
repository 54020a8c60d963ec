import NexusPool.Server.StepEffect

/-!
# The packets that are sent

Every packet that is sent comes from one of a few builders, which choose header, length and data
each on their own. From header 128 on `get_bytes` leaves out the length and the data, whatever the
builder has put there, and below 128 `is_valid` wants a length that is not zero.

`built_of_run` is that there are no other builders: whatever a run sends comes from one of them.
-/

namespace NexusPool

open Reactive World

namespace Packet

/-- The remote end parses the bytes of the packet as a valid packet with its header, length and
data. -/
def ArrivesAsBuilt (peer : Peer) (p : Packet) : Prop :=
  ∃ bytes received, p.getBytes = some bytes ∧ ofBuffer peer bytes = some received ∧
    received.isValid peer = true ∧ received.mHeader = p.mHeader ∧ received.mLength = p.mLength ∧
      received.mData.getD [] = p.mData.getD []

def headersAlone : List UInt8 :=
  [loginSkminerSuccess, loginSkminerFail, accept, reject, block, stale, ping,
    DaemonPacket.getBlockHeader, DaemonPacket.getHeightHeader, DaemonPacket.getRewardHeader,
    DaemonPacket.getRoundHeader]

variable {peer : Peer} {p : Packet}

/-- What is sent whole arrives as built if it is valid. -/
theorem arrivesAsBuilt_iff_isValid {bytes : Bytes} (hbytes : p.getBytes = some bytes)
    (h : p.mHeader < 128 ∨ p.mData = none ∧ p.mLength = 0) :
    p.ArrivesAsBuilt peer ↔ p.isValid peer = true := by
  have hparse := ofBuffer_of_getBytes peer hbytes h
  constructor
  · rintro ⟨bytes', received, hbytes', hparse', hvalid, -⟩
    cases hbytes.symm.trans hbytes'
    cases hparse.symm.trans hparse'
    exact hvalid
  · intro hvalid
    exact ⟨bytes, p, hbytes, hparse, hvalid, rfl, rfl, rfl⟩

/-- The length field has 32 bits. A length of zero is valid only with the header 0, and only for
the miner's packets. -/
theorem withData_arrivesAsBuilt_iff {header : UInt8} (data : Bytes) (hheader : header < 128) :
    (withData header data).ArrivesAsBuilt peer ↔
      data.length % 2 ^ 32 ≠ 0 ∨ peer = .miner ∧ header = 0 := by
  have hbytes : (withData header data).getBytes =
      some (header :: uint2bytes data.length.toUInt32 ++ data) := by
    simp [getBytes, withData, hheader]
  have hnot : ¬ 128 ≤ header := UInt8.not_le.mpr hheader
  have hpos : (0 : UInt32) < data.length.toUInt32 ↔ data.length % 2 ^ 32 ≠ 0 := by
    rw [UInt32.lt_iff_toNat_lt]
    simp [Nat.pos_iff_ne_zero]
  have hzero : data.length.toUInt32 = 0 ↔ ¬ data.length % 2 ^ 32 ≠ 0 := by
    simp [← UInt32.toNat_inj]
  rw [arrivesAsBuilt_iff_isValid hbytes (.inl hheader)]
  simp only [isValid, withData, hheader, hnot, true_and, false_and, or_false, gt_iff_lt,
    hpos, hzero, decide_eq_true_eq]
  tauto

theorem withData_arrivesAsBuilt {header : UInt8} {data : Bytes} {n : ℕ} (hheader : header < 128)
    (hlength : data.length = n) (hn : n % 2 ^ 32 ≠ 0) :
    (withData header data).ArrivesAsBuilt peer :=
  (withData_arrivesAsBuilt_iff data hheader).mpr (.inl (by rwa [hlength]))

theorem getPacket_arrivesAsBuilt {header : UInt8} (hheader : 128 ≤ header) (hlast : header < 255) :
    (getPacket header).ArrivesAsBuilt peer := by
  have hnot : ¬ header < 128 := UInt8.not_lt.mpr hheader
  have hbytes : (getPacket header).getBytes = some [header] := by simp [getBytes, getPacket, hnot]
  rw [arrivesAsBuilt_iff_isValid hbytes (.inr ⟨rfl, rfl⟩)]
  simp [isValid, getPacket, hheader, hlast]

/-- A length that goes with a header from 128 on is not sent. -/
theorem not_arrivesAsBuilt (hheader : 128 ≤ p.mHeader) (hlength : p.mLength ≠ 0) :
    ¬ p.ArrivesAsBuilt peer := by
  rintro ⟨bytes, received, hbytes, hparse, -, -, hsame, -⟩
  have hnot : ¬ p.mHeader < 128 := UInt8.not_lt.mpr hheader
  simp only [getBytes, hnot, if_false, Option.some.injEq] at hbytes
  rw [← hbytes, ofBuffer_singleton] at hparse
  cases hparse
  exact hlength hsame.symm

end Packet

/-! ### The builders -/

/-- A call of a builder, with its arguments. -/
inductive Builder
  | getPacket (header : UInt8) (alone : header ∈ Packet.headersAlone)
  | getHeight (height : UInt32)
  | addBlock (block : CBlock) (minShare : UInt32)
  | accountBalance (nAccountBalance : UInt64)
  | pendingPayout (nPendingPayout : UInt64)
  | setChannel (channel : UInt32)
  | setCoinbase (coinbase : Bytes)
  | checkBlock (hashBlock : Uint1024)
  | submitBlock (hashMerkleRoot : Uint512) (nonce : UInt64)

namespace Builder

variable [Platform]

def build : Builder → Packet
  | getPacket header _ => .getPacket header
  | getHeight height => .getHeight height
  | addBlock block minShare => .withData Packet.blockData (block.serialize block.getHash minShare)
  | accountBalance nAccountBalance => .withData Packet.accountBalance (uint2bytes64 nAccountBalance)
  | pendingPayout nPendingPayout => .withData Packet.pendingPayout (uint2bytes64 nPendingPayout)
  | setChannel channel => DaemonPacket.setChannel channel
  | setCoinbase coinbase => DaemonPacket.setCoinbase coinbase
  | checkBlock hashBlock => DaemonPacket.checkBlock hashBlock
  | submitBlock hashMerkleRoot nonce => DaemonPacket.submitBlock hashMerkleRoot nonce

/-- The header says that length and data follow, or there are none; and the length field is not
zero if there is one. -/
def Framed : Builder → Prop
  | getHeight _ => False
  | setCoinbase coinbase => coinbase.length % 2 ^ 32 ≠ 0
  | _ => True

/-- A packet arrives as built unless it announces the height, or a coinbase whose length field is
zero. -/
theorem build_arrivesAsBuilt_iff (peer : Peer) (builder : Builder) :
    builder.build.ArrivesAsBuilt peer ↔ builder.Framed := by
  cases builder with
  | getPacket header alone =>
    have hrange : Packet.headersAlone.all (fun header => 128 ≤ header ∧ header < 255) = true := by
      decide
    obtain ⟨hheader, hlast⟩ := of_decide_eq_true (List.all_eq_true.mp hrange header alone)
    exact iff_of_true (Packet.getPacket_arrivesAsBuilt hheader hlast) trivial
  | getHeight height =>
    have hheader : 128 ≤ Packet.newBlock := by decide
    have hlength : (4 : ℕ).toUInt32 ≠ 0 := by decide
    exact iff_of_false (Packet.not_arrivesAsBuilt hheader hlength) id
  | addBlock block minShare =>
    have hlength : (block.serialize block.getHash minShare).length = 140 := by
      simp [CBlock.serialize]
    exact iff_of_true (Packet.withData_arrivesAsBuilt (by decide) hlength (by decide)) trivial
  | accountBalance nAccountBalance =>
    have hlength := length_uint2bytes64 nAccountBalance
    exact iff_of_true (Packet.withData_arrivesAsBuilt (by decide) hlength (by decide)) trivial
  | pendingPayout nPendingPayout =>
    have hlength := length_uint2bytes64 nPendingPayout
    exact iff_of_true (Packet.withData_arrivesAsBuilt (by decide) hlength (by decide)) trivial
  | setChannel channel =>
    have hlength := length_uint2bytes channel
    exact iff_of_true (Packet.withData_arrivesAsBuilt (by decide) hlength (by decide)) trivial
  | setCoinbase coinbase =>
    have hheader : DaemonPacket.setCoinbaseHeader < 128 := by decide
    have hfirst : DaemonPacket.setCoinbaseHeader ≠ 0 := by decide
    exact (Packet.withData_arrivesAsBuilt_iff coinbase hheader).trans
      (or_iff_left fun h => hfirst h.2)
  | checkBlock hashBlock =>
    have hlength : hashBlock.getBytes.length = 128 := BaseUint.length_getBytes hashBlock
    exact iff_of_true (Packet.withData_arrivesAsBuilt (by decide) hlength (by decide)) trivial
  | submitBlock hashMerkleRoot nonce =>
    have hlength : (hashMerkleRoot.getBytes ++ uint2bytes64 nonce).length = 72 := by simp
    exact iff_of_true (Packet.withData_arrivesAsBuilt (by decide) hlength (by decide)) trivial

omit [Platform] in
/-- The announcement of a height arrives as `NEW_BLOCK` without the height. -/
theorem getHeight_lost : ¬ ∀ [Platform] (peer : Peer) (builder : Builder),
    builder.build.ArrivesAsBuilt peer := by
  intro h
  obtain ⟨bytes, received, hbytes, hparse, -, -, hlength, -⟩ :=
    @h Platform.plain .miner (.getHeight 1)
  cases hbytes
  cases hparse
  revert hlength
  decide

end Builder

/-! ### What a run sends -/

section Runs

variable [Platform]

/-- A packet that is sent comes from a builder. -/
def Output.Built : Output → Prop
  | .toWallet packet => ∃ builder : Builder, builder.build = packet
  | .toMiner _ packet => ∃ builder : Builder, builder.build = packet
  | .score _ _ => True
  | .ban _ _ => True

/-- Nothing but packets of the builders, and changes of the DDOS filter. -/
def Building : World → World → List Output → Prop := Action.Sending Output.Built

namespace Building

theorem composes : Action.Composes Building := Action.Sending.composes Output.Built

theorem modify (f : World → World) : Action.Ensures Building (Action.modify f) :=
  Action.Sending.modify Output.Built f

theorem registryCall {α : Type} (p : DataRegistry.Handler α) :
    Action.Ensures Building (World.registryCall p) := by
  intro w a w' out h
  obtain ⟨-, -, rfl⟩ := registryCall_eq_some_iff.mp h
  exact composes.refl w

theorem self (i : ℕ) : Action.Ensures Building (PoolConnection.self i) :=
  Action.Only.sending (PoolConnection.only_self Output.Built i)

theorem transmit (i : ℕ) (builder : Builder) :
    Action.Ensures Building (PoolConnection.transmit i builder.build) :=
  Action.Only.sending (PoolConnection.only_transmit ⟨builder, rfl⟩)

theorem reply (i : ℕ) {header : UInt8} (alone : header ∈ Packet.headersAlone) :
    Action.Ensures Building (PoolConnection.transmit i (.getPacket header)) :=
  transmit i (.getPacket header alone)

theorem score (i n : ℕ) : Action.Ensures Building (PoolConnection.score i n) :=
  Action.Only.sending (PoolConnection.only_score trivial)

theorem ddosInvalidHeader (i : ℕ) (packet : Packet) :
    Action.Ensures Building (PoolConnection.ddosInvalidHeader i packet) :=
  Action.Only.sending (PoolConnection.only_ddosInvalidHeader (fun _ => trivial) packet)

theorem refuseShare (i : ℕ) {verdict : UInt8} (alone : verdict ∈ Packet.headersAlone) (n : ℕ) :
    Action.Ensures Building (PoolConnection.refuseShare i verdict n) :=
  Action.Only.sending (PoolConnection.only_refuseShare ⟨.getPacket verdict alone, rfl⟩
    (fun height => ⟨.getHeight height, rfl⟩) trivial)

theorem refuseLogin (i : ℕ) : Action.Ensures Building (PoolConnection.refuseLogin i) :=
  reply i (by decide)

theorem banIpAddress (mRemoteAddress : Bytes) :
    Action.Ensures Building (PoolConnection.banIpAddress mRemoteAddress) := by
  refine .bind composes (.get composes) fun w => .ite (fun _ => modify _) fun _ => ?_
  exact .pure composes _

theorem admitLogin (i : ℕ) (nxsAddress : Bytes) :
    Action.Ensures Building (PoolConnection.admitLogin i nxsAddress) := by
  refine .bind composes (self i) fun pool => .bind composes (registryCall _) fun _ => ?_
  refine .bind composes (.get composes) fun w => .ite (fun _ => ?_) fun _ => ?_
  · refine .bind composes (banIpAddress _) fun _ => ?_
    exact .bind composes (Action.Sending.send trivial) fun _ => refuseLogin i
  · exact .bind composes (modify _) fun _ => reply i (by decide)

theorem handleLogin (i : ℕ) (packet : Packet) :
    Action.Ensures Building (PoolConnection.handleLogin i packet) := by
  refine .bind composes (self i) fun pool => .ite (fun _ => score i 10) fun _ => ?_
  refine .bind composes (.ofOption composes _) fun nxsAddress => ?_
  refine .bind composes (modify _) fun _ => .ite (fun _ => admitLogin i nxsAddress) fun _ => ?_
  refine .bind composes ?_ fun _ => refuseLogin i
  exact Action.Only.sending (PoolConnection.only_banAddress fun _ => trivial)

theorem handleGetBlock (i : ℕ) : Action.Ensures Building (PoolConnection.handleGetBlock i) := by
  refine .bind composes (modify _) fun _ => .bind composes (self i) fun pool => ?_
  refine .bind composes ?_ fun _ => Action.Sending.send trivial
  refine .bind composes (.get composes) fun w => ?_
  exact .bind composes (.ofOption composes _) fun j => modify _

theorem handleGetBalance (i : ℕ) : Action.Ensures Building (PoolConnection.handleGetBalance i) := by
  refine .bind composes (self i) fun pool => .bind composes (registryCall _) fun cAccount => ?_
  exact transmit i (.accountBalance cAccount.nAccountBalance)

theorem handleGetPayout (i : ℕ) : Action.Ensures Building (PoolConnection.handleGetPayout i) := by
  refine .bind composes (self i) fun pool => .bind composes (registryCall _) fun nValue => ?_
  exact transmit i (.pendingPayout nValue)

theorem handleSubmitPps (i : ℕ) (data : Bytes) :
    Action.Ensures Building (PoolConnection.handleSubmitPps i data) :=
  Action.Only.sending (PoolConnection.only_handleSubmitPps
    ⟨.getPacket Packet.ping (by decide), rfl⟩ data)

theorem submitBlock (block : CBlock) (ipAddress : Bytes) :
    Action.Ensures Building (DaemonConnection.submitBlock block ipAddress) := by
  refine .bind composes (.get composes) fun w => .bind composes (.ofOption composes _) fun j => ?_
  refine .ite (fun _ => ?_) fun _ => .pure composes _
  exact .bind composes (modify _) fun _ => .pure composes _

theorem creditShare (i : ℕ) (block : CBlock) (nNonce : UInt64) (prime : Uint1024)
    (nDifficulty : ℚ) :
    Action.Ensures Building (PoolConnection.creditShare i block nNonce prime nDifficulty) := by
  refine .bind composes (self i) fun pool => .bind composes (modify _) fun _ => ?_
  refine .bind composes (registryCall _) fun _ => .ite (fun _ => ?_) fun _ => reply i (by decide)
  refine .bind composes (submitBlock _ _) fun accepted => .ite (fun _ => ?_) fun _ => ?_
  · exact reply i (by decide)
  · exact .pure composes _

theorem handleSubmitShare (i : ℕ) (data : Bytes) :
    Action.Ensures Building (PoolConnection.handleSubmitShare i data) := by
  refine .bind composes (self i) fun pool => .bind composes (.ofOption composes _) fun share => ?_
  obtain ⟨hashPrimeOrigin, nNonce⟩ := share
  dsimp only
  cases pool.mBlocksRequested[hashPrimeOrigin]? with
  | none => exact refuseShare i (by decide) 1
  | some block =>
    refine .bind composes (.get composes) fun w => ?_
    refine .ite (fun _ => refuseShare i (by decide) 2) fun _ => .ite (fun _ => ?_) fun _ => ?_
    · exact .bind composes (reply i (by decide)) fun _ => score i 5
    · refine .bind composes (.ofOption composes _) fun nDifficulty => .ite (fun _ => ?_) fun _ => ?_
      · exact creditShare i block nNonce _ nDifficulty
      · exact .bind composes (score i 5) fun _ => reply i (by decide)

theorem handleRequest (i : ℕ) (packet : Packet) :
    Action.Ensures Building (PoolConnection.handleRequest i packet) := by
  refine .ite (fun _ => handleGetBlock i) fun _ => .ite (fun _ => handleGetBalance i) fun _ => ?_
  refine .ite (fun _ => handleGetPayout i) fun _ => .ite (fun _ => reply i (by decide)) fun _ => ?_
  refine .ite (fun _ => ?_) fun _ => .ite (fun _ => ?_) fun _ => .pure composes _
  · exact .bind composes (.ofOption composes _) fun data => handleSubmitPps i data
  · exact .bind composes (.ofOption composes _) fun data => handleSubmitShare i data

theorem processData (i : ℕ) (receiveBuffer : Bytes) :
    Action.Ensures Building (PoolConnection.processData i receiveBuffer) := by
  refine .bind composes (.ofOption composes _) fun packet => .ite (fun _ => ?_) fun _ => score i 10
  refine .bind composes (ddosInvalidHeader i packet) fun _ => .bind composes (self i) fun pool => ?_
  refine .ite (fun _ => handleLogin i packet) fun _ => ?_
  exact .ite (fun _ => handleRequest i packet) fun _ => score i 10

end Building

variable {w w' : World} {out : List Output}

theorem WalletEffect.built {packet : Packet} (h : WalletEffect w packet w' out) :
    ∀ o ∈ out, o.Built := by
  cases h with
  | rebuilt => exact List.forall_mem_singleton.mpr ⟨.setCoinbase _, rfl⟩
  | @delivered _ block _ _ pool =>
    exact List.forall_mem_singleton.mpr ⟨.addBlock block pool.mMinShare, rfl⟩
  | round cause frame =>
    refine List.forall_mem_append.mpr ⟨fun o ho => ?_, ?_⟩
    · obtain ⟨i, height, rfl⟩ := frame.outputs o ho
      exact ⟨.getHeight height, rfl⟩
    · unfold World.resetOutputs
      split_ifs
      · exact List.forall_mem_singleton.mpr ⟨.setCoinbase _, rfl⟩
      · exact List.forall_mem_nil _
  | _ => exact List.forall_mem_nil _

theorem built_of_step {e : Event} (hnew : w.daemon.mNewBlock = false)
    (hstep : w.step e = some (w', out)) : ∀ o ∈ out, o.Built := by
  cases step_effect hnew hstep with
  | miner => exact Building.processData _ _ _ _ _ _ (handler_of_step hstep)
  | wallet parsed effect => exact effect.built
  | walletConnected => exact List.forall_mem_singleton.mpr ⟨.setChannel 1, rfl⟩
  | blockTimer take forward =>
    refine List.forall_mem_append.mpr ⟨?_, fun o ho => ?_⟩
    · cases take with
      | @sent _ _ block =>
        exact List.forall_mem_singleton.mpr ⟨.submitBlock block.hashMerkleRoot block.nNonce, rfl⟩
      | _ => exact List.forall_mem_nil _
    · rw [forward.outputs o ho]
      exact ⟨.getPacket DaemonPacket.getBlockHeader (by decide), rfl⟩
  | orphanCheckTimer outputs =>
    intro o ho
    obtain ⟨hashBlock, rfl⟩ := outputs o ho
    exact ⟨.checkBlock hashBlock, rfl⟩
  | getHeightTimer outputs =>
    intro o ho
    have hpoll := outputs o ho
    simp only [List.mem_cons, List.not_mem_nil, or_false] at hpoll
    rcases hpoll with rfl | rfl | rfl
    · exact ⟨.getPacket DaemonPacket.getHeightHeader (by decide), rfl⟩
    · exact ⟨.getPacket DaemonPacket.getRoundHeader (by decide), rfl⟩
    · exact ⟨.getPacket DaemonPacket.getRewardHeader (by decide), rfl⟩
  | _ => exact List.forall_mem_nil _

theorem built_of_run {history : History World Event Output} (h : ServerRun history w) :
    ∀ occurrence ∈ history, ∀ o ∈ occurrence.outputs, o.Built := by
  induction h with
  | start => exact List.forall_mem_nil _
  | next hrun hstep ih =>
    exact List.forall_mem_cons.mpr ⟨built_of_step (mNewBlock_of_run hrun) hstep, ih⟩

end Runs

end NexusPool
