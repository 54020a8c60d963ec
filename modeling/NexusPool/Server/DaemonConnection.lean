import NexusPool.Server.PoolConnection

/-!
# The daemon connection

The handlers of `Daemon_connection`: packets of the wallet and the timers. `new_round` sets
`m_new_block`, and the end of `process_data` acts on it whatever the packet was.
-/

namespace NexusPool

open Reactive World

namespace DaemonConnection

/-! ### Timers -/

def nextSubmission (w : World) : Option (ℕ × PoolConnection × CBlock) :=
  w.daemon.mPoolConnections.zipIdx.findSome? fun poolData => do
    let pool ← w.lock poolData.1.mConnection
    let block ← poolData.1.mSubmitBlock
    return (poolData.2, pool, block)

/-- Takes one block from the entries. The hash is noted even if the block is stale and is not
sent, the finder only if it is sent. -/
def takeSubmission [Platform] : Act Unit := do
  let w ← Action.get
  match nextSubmission w with
  | none => pure ()
  | some (j, pool, block) =>
    Action.modify (modifyDaemon ({ · with mHashSubmitBlock := block.getHash }))
    if block.nHeight = w.registry.mBestHeight then
      transmit (DaemonPacket.submitBlock block.hashMerkleRoot block.nNonce)
      Action.modify (modifyDaemon ({ · with mLastBlockfinder := pool.mNxsaddress }))
    Action.modify (modifyEntry j ({ · with mSubmitBlock := none }))

/-- The inner loop, which runs until no request of entry `j` is left. -/
def forwardRequests (j : ℕ) : ℕ → Act Unit
  | 0 => pure ()
  | nBlocks + 1 => do
    Action.modify (modifyEntry j fun poolData =>
      { poolData with
        mBlocksRequested := poolData.mBlocksRequested - 1
        mBlocksWaiting := poolData.mBlocksWaiting + 1 })
    transmit DaemonPacket.getBlock
    forwardRequests j nBlocks

/-- Does nothing while a new round is pending. -/
def blockTimerHandler [Platform] : Act Unit := do
  let w ← Action.get
  if !w.daemon.mCoinbasePending then
    takeSubmission
    w.daemon.mPoolConnections.zipIdx.forM fun poolData =>
      forwardRequests poolData.2 poolData.1.mBlocksRequested.toNat

/-- The difference of the rounds is taken in 32 bits. -/
def orphanCheckTimerHandler : Act Unit := do
  let w ← Action.get
  w.registry.mBlockDb.getKeys.forM fun key => do
    let cBlock ← registryCall (DataRegistry.call (.blockGet key))
    if cBlock.nRound ≥ w.registry.mCurrentRound - 5 ∧ cBlock.nCoinbaseValue > 0 then
      transmit (DaemonPacket.checkBlock key)

def getHeightTimerHandler : Act Unit := do
  transmit DaemonPacket.getHeight
  transmit DaemonPacket.getRound
  let w ← Action.get
  if w.daemon.mCoinbasePending then
    transmit DaemonPacket.getReward

/-! ### A new round -/

def newRound : Act Unit := do
  Action.modify (modifyDaemon ({ · with mNewBlock := true }))
  let w ← Action.get
  w.daemon.mPoolConnections.forM fun poolData =>
    match w.lock poolData.mConnection with
    | none => pure ()
    | some _ => PoolConnection.newRound poolData.mConnection w.registry.mBestHeight

/-- The end of `process_data`: after a new round the coinbase is sent. -/
def resetDaemon : Act Unit := do
  let w ← Action.get
  if w.daemon.mNewBlock then
    Action.modify (modifyDaemon ({ · with mNewBlock := false }))
    if w.registry.mCurrentRound > 1 then
      transmit (DaemonPacket.setCoinbase w.registry.mCoinbase.serialize)
    else
      Action.modify (modifyDaemon ({ · with mCoinbasePending := false }))

/-! ### Packets of the wallet -/

def setPending (pending : Bool) : Act Unit :=
  Action.modify (modifyDaemon ({ · with mCoinbasePending := pending }))

def handleBlockHeight (data : Bytes) : Act Unit := do
  let height := bytes2uint data 0
  let w ← Action.get
  if height > w.registry.mBestHeight then
    Action.modify (modifyRegistry ({ · with mBestHeight := height }))
    setPending true

/-- Each account is read again, and one with a balance gets it as an output, if it fits. The
source's test for a negative remainder, on an unsigned value, never holds. -/
def addPayout (coinbase : Coinbase) (key : Bytes) : DataRegistry.Handler Coinbase := do
  let cAccount ← DataRegistry.call (.accountGet key)
  if cAccount.nAccountBalance > 0 then
    return (coinbase.addTransaction key cAccount.nAccountBalance).2
  else
    return coinbase

/-- `get_sorted_accounts`, whose comparison reads the records. -/
def getSortedAccounts [Platform] : DataRegistry.Handler (List Bytes) := do
  let vAccounts ← DataRegistry.call .accountKeys
  let balances ← vAccounts.mapM fun key => do
    let cAccount ← DataRegistry.call (.accountGet key)
    return (key, cAccount.nAccountBalance)
  return (Platform.sortAccounts balances).map (·.1)

/-- The coinbase for the next block: balances from the highest down, and to the last block
finder what is left. -/
def rebuildCoinbase [Platform] (reward : UInt64) (lastBlockfinder : Bytes) (coinbase : Coinbase) :
    DataRegistry.Handler Coinbase := do
  let poolFee ← DataRegistry.call .poolFee
  let nPoolFee := reward * poolFee.toUInt64
  let vAccounts ← getSortedAccounts
  let coinbase ← vAccounts.foldlM addPayout
    ({ coinbase with nPoolFee := nPoolFee }.reset (reward - nPoolFee))
  if coinbase.isComplete then
    return coinbase
  else
    return (coinbase.addTransaction lastBlockfinder coinbase.getRemainder).2

def handleBlockReward [Platform] (data : Bytes) : Act Unit := do
  let reward := bytes2uint64 data 0
  Action.modify (modifyDaemon ({ · with mRoundReward := reward }))
  let w ← Action.get
  if w.registry.mCurrentRound > 1 ∧ w.daemon.mCoinbasePending then
    let coinbase ← registryCall
      (rebuildCoinbase reward w.daemon.mLastBlockfinder w.registry.mCoinbase)
    Action.modify (modifyRegistry ({ · with mCoinbase := coinbase }))
    transmit (DaemonPacket.setCoinbase coinbase.serialize)
  else
    setPending false
    newRound

def handleCoinbaseSet : Act Unit := do
  setPending false
  newRound

/-- The record is read for the log before it is refunded. -/
def handleOrphanBlock (data : Bytes) : Act Unit := do
  let hashOrphan ← Action.ofOption (BaseUint.setBytes 32 data)
  registryCall do
    let _ ← DataRegistry.call (.blockGet hashOrphan)
    PayoutManager.refundPayouts hashOrphan
  setPending true

/-- Only the log uses the record. -/
def handleGoodBlock (data : Bytes) : Act Unit := do
  let hashBlock ← Action.ofOption (BaseUint.setBytes 32 data)
  let _ ← registryCall (DataRegistry.call (.blockGet hashBlock))

/-- A block was accepted: the round is paid out and a new one starts. -/
def handleGood : Act Unit := do
  let w ← Action.get
  registryCall do
    PayoutManager.updateBalances w.daemon.mRoundReward w.daemon.mHashSubmitBlock
      w.daemon.mLastBlockfinder
    PayoutManager.clearShares
  Action.modify (modifyRegistry fun r => { r with mCurrentRound := r.mCurrentRound + 1 })
  newRound

/-- The first entry that waits for a block and whose connection is alive. -/
def nextWaiting (w : World) : Option (ℕ × ℕ) :=
  w.daemon.mPoolConnections.zipIdx.findSome? fun poolData => do
    let _ ← w.lock poolData.1.mConnection
    if poolData.1.mBlocksWaiting > 0 then
      some (poolData.2, poolData.1.mConnection)
    else
      none

/-- A block of the current height goes to the first connection that waits for one, and then
`process_data` returns. True if it does. -/
def handleBlockData [Platform] (data : Bytes) : Act Bool := do
  let block ← Action.ofOption (CBlock.deserialize data)
  let w ← Action.get
  if block.nHeight = w.registry.mBestHeight then
    match nextWaiting w with
    | none => return false
    | some (j, i) =>
      Action.modify (modifyEntry j fun poolData =>
        { poolData with mBlocksWaiting := poolData.mBlocksWaiting - 1 })
      PoolConnection.addBlock i block
      return true
  else
    return false

/-- What each header does. Other headers, `FAIL` among them, do nothing. -/
def handlePacket [Platform] (packet : Packet) : Act Unit := do
  if packet.mHeader = DaemonPacket.blockHeight then
    let data ← Action.ofOption packet.mData
    handleBlockHeight data
  else if packet.mHeader = DaemonPacket.newRound then
    setPending true
  else if packet.mHeader = DaemonPacket.coinbaseSet then
    handleCoinbaseSet
  else if packet.mHeader = DaemonPacket.coinbaseFail then
    setPending true
  else if packet.mHeader = DaemonPacket.blockReward then
    let data ← Action.ofOption packet.mData
    handleBlockReward data
  else if packet.mHeader = DaemonPacket.orphanBlock then
    let data ← Action.ofOption packet.mData
    handleOrphanBlock data
  else if packet.mHeader = DaemonPacket.goodBlock then
    let data ← Action.ofOption packet.mData
    handleGoodBlock data
  else if packet.mHeader = DaemonPacket.good then
    handleGood

def processData [Platform] (receiveBuffer : Bytes) : Act Unit := do
  let packet ← Action.ofOption (Packet.ofBuffer .wallet receiveBuffer)
  if packet.isValid .wallet then
    if packet.mHeader = DaemonPacket.blockData then
      let data ← Action.ofOption packet.mData
      let assigned ← handleBlockData data
      if !assigned then
        resetDaemon
    else
      handlePacket packet
      resetDaemon

end DaemonConnection

end NexusPool
