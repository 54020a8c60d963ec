import NexusPool.Server.World

/-!
# Pool connections

The handlers of `Pool_connection`: what the daemon connection calls on it, and what it does
with each packet of its miner.
-/

namespace NexusPool

open Reactive World

namespace PoolConnection

/-- The connection itself, from one of its own handlers. -/
def self (i : ℕ) : Act PoolConnection := do
  let w ← Action.get
  Action.ofOption w.pools[i]?

/-- Dereferences the network connection. -/
def transmit (i : ℕ) (packet : Packet) : Act Unit := do
  let pool ← self i
  Action.require pool.mConnection
  Action.send (.toMiner i packet)

@[simp] theorem self_eq_some_iff {i : ℕ} {pool : PoolConnection} {w w' : World}
    {out : List Output} :
    self i w = some (pool, w', out) ↔ w.pools[i]? = some pool ∧ w' = w ∧ out = [] := by
  rw [self, Action.get_bind, Action.ofOption_eq_some_iff]

theorem transmit_eq_some {i : ℕ} {packet : Packet} {u : Unit} {w w' : World} {out : List Output}
    (h : transmit i packet w = some (u, w', out)) : w' = w ∧ out = [.toMiner i packet] := by
  simp only [transmit, Action.bind_eq_some_iff, self_eq_some_iff, Action.require_eq_some_iff,
    Action.send_eq_some_iff] at h
  obtain ⟨pool, _, _, _, ⟨_, rfl, rfl⟩, ⟨_, _, _, _, ⟨_, rfl, rfl⟩, ⟨rfl, rfl⟩, rfl⟩, rfl⟩ := h
  exact ⟨rfl, rfl⟩

/-! ### Calls from the daemon connection -/

def newRound (i : ℕ) (newHeight : UInt32) : Act Unit := do
  Action.modify (modifyPool i fun pool =>
    { pool with mPrimes := [], mBlocksRequested := ∅, mNumBlocksRequested := 0 })
  transmit i (.getHeight newHeight)

/-- Stores a block under its hash and passes it on to the miner, unless the connection is
closed. -/
def addBlock [Platform] (i : ℕ) (block : CBlock) : Act Unit := do
  let pool ← self i
  if pool.mConnection then
    Action.modify (modifyPool i fun pool =>
      { pool with
        mNumBlocksRequested := pool.mNumBlocksRequested - 1
        mBlocksRequested := pool.mBlocksRequested.insert block.getHash block })
    transmit i (.withData Packet.blockData (block.serialize block.getHash pool.mMinShare))

/-! ### The DDOS filter -/

/-- Most scores count only with DDOS protection on. -/
def score (i : ℕ) (nScore : ℕ) : Act Unit := do
  let pool ← self i
  if pool.mIsDDOS then
    Action.send (.score i nScore)

/-- The packets a miner should not send, in the order of the checks. -/
def violations (packet : Packet) : List (Bool × String) :=
  [(packet.mLength > 136, "Max Packet Size Exceeded"),
   (packet.mHeader = Packet.submitShare ∧ packet.mLength ≠ 136, "Packet of Share not 136 Bytes"),
   (packet.mHeader = Packet.login ∧ packet.mLength > 55, "Login Message too Large"),
   (packet.mHeader = Packet.submitPps ∧ packet.mLength ≠ 16, "Submit PPS Packet not 16 Bytes"),
   (packet.mHeader = Packet.blockData, "Received Block Data Header. Invalid as Request"),
   (packet.mHeader = Packet.accountBalance, "Received Account Balance Header. Inavlid as Request"),
   (packet.mHeader = Packet.pendingPayout, "Recieved Pending Payout Header. Invald as Request"),
   (packet.mHeader = Packet.accept, "Received Share Accepted Header. Invalid as Request"),
   (packet.mHeader = Packet.reject, "Received Share Rejected Header. Invalid as Request."),
   (packet.mHeader = Packet.block, "Received Block Header. Invalid as Request."),
   (packet.mHeader = Packet.stale, "Recieved Stale Share Header. Invalid as Request")]

/-- `ddos_invalid_header` bans, but the packet is handled all the same. -/
def ddosInvalidHeader (i : ℕ) (packet : Packet) : Act Unit := do
  let pool ← self i
  if pool.mIsDDOS then
    ((violations packet).filter (·.1)).forM fun violation => Action.send (.ban i violation.2)

/-! ### Packets of the miner -/

/-- The IP address of a banned account is banned as well. -/
def banIpAddress (mRemoteAddress : Bytes) : Act Unit := do
  let w ← Action.get
  if !w.registry.mBannedUsers.isIpAddressBanned mRemoteAddress then
    Action.modify (modifyRegistry fun r =>
      { r with mBannedUsers := r.mBannedUsers.addBannedIpAddress mRemoteAddress })

def refuseLogin (i : ℕ) : Act Unit := transmit i (.getPacket Packet.loginSkminerFail)

/-- A login with a valid address. Its account is opened before the list of banned accounts is
consulted, and the ban does not ask for DDOS protection. -/
def admitLogin (i : ℕ) (nxsAddress : Bytes) : Act Unit := do
  let pool ← self i
  registryCall (openAccount nxsAddress)
  let w ← Action.get
  if w.registry.mBannedUsers.isAccountBanned nxsAddress then
    banIpAddress pool.mRemoteAddress
    Action.send (.ban i "Account is Banned")
    refuseLogin i
  else
    Action.modify (modifyPool i ({ · with mLoggedIn := true }))
    transmit i (.getPacket Packet.loginSkminerSuccess)

def banAddress (i : ℕ) : Act Unit := do
  let pool ← self i
  if pool.mIsDDOS then
    Action.send (.ban i "Invalid Nexus Address on Login")

/-- `LOGIN`. The address is stored before it is checked. -/
def handleLogin [Platform] (i : ℕ) (packet : Packet) : Act Unit := do
  let pool ← self i
  if pool.mLoggedIn then
    score i 10
  else
    let nxsAddress ← Action.ofOption packet.mData
    Action.modify (modifyPool i ({ · with mNxsaddress := nxsAddress }))
    if Platform.isValidAddress nxsAddress then
      admitLogin i nxsAddress
    else
      banAddress i
      refuseLogin i

/-- `GET_BLOCK` scores with DDOS protection off as well. -/
def handleGetBlock (i : ℕ) : Act Unit := do
  Action.modify (modifyPool i fun pool =>
    { pool with mNumBlocksRequested := pool.mNumBlocksRequested + 1 })
  let pool ← self i
  DaemonConnection.requestBlock pool.mNumBlocksRequested pool.mRemoteAddress
  Action.send (.score i 1)

def handleGetBalance (i : ℕ) : Act Unit := do
  let pool ← self i
  let cAccount ← registryCall (DataRegistry.call (.accountGet pool.mNxsaddress))
  transmit i (.withData Packet.accountBalance (uint2bytes64 cAccount.nAccountBalance))

/-- The output of the account in the coinbase, read only if there is one. -/
def pendingPayout (nxsAddress : Bytes) : DataRegistry.Handler UInt64 := do
  if ← DataRegistry.call (.findAddress nxsAddress) then
    DataRegistry.call (.mapOutputs nxsAddress)
  else
    return 0

def handleGetPayout (i : ℕ) : Act Unit := do
  let pool ← self i
  let nValue ← registryCall (pendingPayout pool.mNxsaddress)
  transmit i (.withData Packet.pendingPayout (uint2bytes64 nValue))

/-- `SUBMIT_PPS`: two doubles, which only the statistics would use. Slices of fewer than
eight bytes leave the data. -/
def handleSubmitPps (i : ℕ) (data : Bytes) : Act Unit := do
  Action.require (8 ≤ data.length)
  transmit i (.getPacket Packet.ping)

/-- The hash and the nonce in the data of a share: all but the last eight bytes, and these. -/
def readShare [Target] (data : Bytes) : Option (Uint1024 × UInt64) :=
  if data.length < 8 then none
  else (BaseUint.setBytes 32 (data.take (data.length - 8))).map fun hashPrimeOrigin =>
    (hashPrimeOrigin, bytes2uint64 (data.drop (data.length - 8)) 0)

def hashPrime (hashPrimeOrigin : Uint1024) (nNonce : UInt64) : Uint1024 :=
  hashPrimeOrigin + .ofUInt64 30 nNonce

/-- A refused share is answered with the verdict and the height. -/
def refuseShare (i : ℕ) (verdict : UInt8) (nScore : ℕ) : Act Unit := do
  let w ← Action.get
  transmit i (.getPacket verdict)
  transmit i (.getHeight w.registry.mBestHeight)
  score i nScore

/-- A verified share of sufficient difficulty: its weight goes to the account, and if the
difficulty is that of the block, the block goes to the daemon connection. -/
def creditShare [Platform] (i : ℕ) (block : CBlock) (nNonce : UInt64) (prime : Uint1024)
    (nDifficulty : ℚ) : Act Unit := do
  let pool ← self i
  Action.modify (modifyPool i fun pool => { pool with mPrimes := prime :: pool.mPrimes })
  registryCall (acceptShare pool.mNxsaddress (Platform.shareWeight nDifficulty))
  if nDifficulty ≥ Prime.getDifficulty block.nBits then
    if ← DaemonConnection.submitBlock { block with nNonce := nNonce } pool.mRemoteAddress then
      transmit i (.getPacket Packet.block)
  else
    transmit i (.getPacket Packet.accept)

def handleSubmitShare [Platform] (i : ℕ) (data : Bytes) : Act Unit := do
  let pool ← self i
  let (hashPrimeOrigin, nNonce) ← Action.ofOption (readShare data)
  match pool.mBlocksRequested[hashPrimeOrigin]? with
  | none => refuseShare i Packet.reject 1
  | some block =>
    let w ← Action.get
    if block.nHeight ≠ w.registry.mBestHeight then
      refuseShare i Packet.stale 2
    else
      let prime := hashPrime hashPrimeOrigin nNonce
      if prime ∈ pool.mPrimes then
        transmit i (.getPacket Packet.reject)
        score i 5
      else
        let nDifficulty ← Action.ofOption (Platform.gmpVerification prime)
        if Prime.setBits nDifficulty ≥ pool.mMinShare then
          creditShare i block nNonce prime nDifficulty
        else
          score i 5
          transmit i (.getPacket Packet.reject)

/-- Requests of a miner that is logged in. Other headers are ignored. -/
def handleRequest [Platform] (i : ℕ) (packet : Packet) : Act Unit := do
  if packet.mHeader = Packet.getBlock then
    handleGetBlock i
  else if packet.mHeader = Packet.getBalance then
    handleGetBalance i
  else if packet.mHeader = Packet.getPayout then
    handleGetPayout i
  else if packet.mHeader = Packet.ping then
    transmit i (.getPacket Packet.ping)
  else if packet.mHeader = Packet.submitPps then
    let data ← Action.ofOption packet.mData
    handleSubmitPps i data
  else if packet.mHeader = Packet.submitShare then
    let data ← Action.ofOption packet.mData
    handleSubmitShare i data

def processData [Platform] (i : ℕ) (receiveBuffer : Bytes) : Act Unit := do
  let packet ← Action.ofOption (Packet.ofBuffer .miner receiveBuffer)
  if packet.isValid .miner then
    ddosInvalidHeader i packet
    let pool ← self i
    if packet.mHeader = Packet.login then
      handleLogin i packet
    else if pool.mLoggedIn then
      handleRequest i packet
    else
      score i 10
  else
    score i 10

/-! ### Handlers that only send -/

section Handlers

variable {P : Output → Prop} {i : ℕ}

theorem only_self (P : Output → Prop) (i : ℕ) : Action.Ensures (Action.Only P) (self i) :=
  .bind (Action.Only.composes P) (.get (Action.Only.composes P)) fun _ =>
    .ofOption (Action.Only.composes P) _

theorem only_transmit {packet : Packet} (h : P (.toMiner i packet)) :
    Action.Ensures (Action.Only P) (transmit i packet) := by
  refine .bind (Action.Only.composes P) (only_self P i) fun pool => ?_
  refine .bind (Action.Only.composes P) (.require (Action.Only.composes P) _) fun _ => ?_
  exact Action.Only.send h

theorem only_score {nScore : ℕ} (h : P (.score i nScore)) :
    Action.Ensures (Action.Only P) (score i nScore) := by
  refine .bind (Action.Only.composes P) (only_self P i) fun pool => .ite (fun _ => ?_) fun _ => ?_
  · exact Action.Only.send h
  · exact .pure (Action.Only.composes P) _

theorem only_ddosInvalidHeader (h : ∀ strMessage, P (.ban i strMessage)) (packet : Packet) :
    Action.Ensures (Action.Only P) (ddosInvalidHeader i packet) := by
  refine .bind (Action.Only.composes P) (only_self P i) fun pool => .ite (fun _ => ?_) fun _ => ?_
  · exact .forM (Action.Only.composes P) _ fun violation _ => Action.Only.send (h violation.2)
  · exact .pure (Action.Only.composes P) _

theorem only_banAddress (h : ∀ strMessage, P (.ban i strMessage)) :
    Action.Ensures (Action.Only P) (banAddress i) := by
  refine .bind (Action.Only.composes P) (only_self P i) fun pool => .ite (fun _ => ?_) fun _ => ?_
  · exact Action.Only.send (h _)
  · exact .pure (Action.Only.composes P) _

theorem only_handleSubmitPps (h : P (.toMiner i (.getPacket Packet.ping))) (data : Bytes) :
    Action.Ensures (Action.Only P) (handleSubmitPps i data) :=
  .bind (Action.Only.composes P) (.require (Action.Only.composes P) _) fun _ => only_transmit h

theorem only_refuseShare {verdict : UInt8} {nScore : ℕ}
    (hverdict : P (.toMiner i (.getPacket verdict)))
    (hheight : ∀ height, P (.toMiner i (.getHeight height))) (hscore : P (.score i nScore)) :
    Action.Ensures (Action.Only P) (refuseShare i verdict nScore) := by
  refine .bind (Action.Only.composes P) (.get (Action.Only.composes P)) fun w => ?_
  refine .bind (Action.Only.composes P) (only_transmit hverdict) fun _ => ?_
  exact .bind (Action.Only.composes P) (only_transmit (hheight _)) fun _ => only_score hscore

end Handlers

end PoolConnection

end NexusPool
