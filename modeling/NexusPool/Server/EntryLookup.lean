import NexusPool.Server.Cleanup
import NexusPool.Server.Requests

/-!
# Looking up the entry of a connection

`request_block` and `submit_block` look for the entry of their caller by its address, and use what
they find without asking whether it is there. It is: a connection is entered before its first
packet, it is alive while it is open, and the removal of expired entries keeps those of the living.
-/

namespace NexusPool

open Reactive World

/-- The call on the daemon connection that a packet leads to. -/
inductive DaemonCall
  | requestBlock (blocksRequested : UInt16) (ipAddress : Bytes)
  | submitBlock (block : CBlock) (ipAddress : Bytes)

def DaemonCall.ipAddress : DaemonCall → Bytes
  | requestBlock _ ipAddress => ipAddress
  | submitBlock _ ipAddress => ipAddress

namespace PoolConnection

/-! ### Handlers up to the call -/

def noCall (handler : Act Unit) : Act (Option DaemonCall) := do
  handler
  return none

def handleGetBlockCall (i : ℕ) : Act (Option DaemonCall) := do
  Action.modify (modifyPool i fun pool =>
    { pool with mNumBlocksRequested := pool.mNumBlocksRequested + 1 })
  let pool ← self i
  return some (.requestBlock pool.mNumBlocksRequested pool.mRemoteAddress)

def creditShareCall [Platform] (i : ℕ) (block : CBlock) (nNonce : UInt64) (prime : Uint1024)
    (nDifficulty : ℚ) : Act (Option DaemonCall) := do
  let pool ← self i
  Action.modify (modifyPool i fun pool => { pool with mPrimes := prime :: pool.mPrimes })
  registryCall (acceptShare pool.mNxsaddress (Platform.shareWeight nDifficulty))
  if nDifficulty ≥ Prime.getDifficulty block.nBits then
    return some (.submitBlock { block with nNonce := nNonce } pool.mRemoteAddress)
  else
    noCall (transmit i (.getPacket Packet.accept))

/-- For the search in `mPrimes`. -/
local instance : LawfulBEq Uint1024 := inferInstance

def handleSubmitShareCall [Platform] (i : ℕ) (data : Bytes) : Act (Option DaemonCall) := do
  let pool ← self i
  let (hashPrimeOrigin, nNonce) ← Action.ofOption (readShare data)
  match pool.mBlocksRequested[hashPrimeOrigin]? with
  | none => noCall (refuseShare i Packet.reject 1)
  | some block =>
    let w ← Action.get
    if block.nHeight ≠ w.registry.mBestHeight then
      noCall (refuseShare i Packet.stale 2)
    else
      let prime := hashPrime hashPrimeOrigin nNonce
      if prime ∈ pool.mPrimes then
        noCall do
          transmit i (.getPacket Packet.reject)
          score i 5
      else
        let nDifficulty ← Action.ofOption (Platform.gmpVerification prime)
        if Prime.setBits nDifficulty ≥ pool.mMinShare then
          creditShareCall i block nNonce prime nDifficulty
        else
          noCall do
            score i 5
            transmit i (.getPacket Packet.reject)

def handleRequestCall [Platform] (i : ℕ) (packet : Packet) : Act (Option DaemonCall) := do
  if packet.mHeader = Packet.getBlock then
    handleGetBlockCall i
  else if packet.mHeader = Packet.submitShare then
    let data ← Action.ofOption packet.mData
    handleSubmitShareCall i data
  else
    noCall (handleRequest i packet)

/-- The handler of a packet until it calls the daemon connection. -/
def processDataCall [Platform] (i : ℕ) (receiveBuffer : Bytes) : Act (Option DaemonCall) := do
  let packet ← Action.ofOption (Packet.ofBuffer .miner receiveBuffer)
  if packet.isValid .miner then
    ddosInvalidHeader i packet
    let pool ← self i
    if packet.mHeader = Packet.login then
      noCall (handleLogin i packet)
    else if pool.mLoggedIn then
      handleRequestCall i packet
    else
      noCall (score i 10)
  else
    noCall (score i 10)

/-- The call and what is left of the handler. -/
def resume (i : ℕ) : Option DaemonCall → Act Unit
  | none => return ()
  | some (.requestBlock blocksRequested ipAddress) => do
    DaemonConnection.requestBlock blocksRequested ipAddress
    Action.send (.score i 1)
  | some (.submitBlock block ipAddress) => do
    if ← DaemonConnection.submitBlock block ipAddress then
      transmit i (.getPacket Packet.block)

theorem noCall_eq_some {handler : Act Unit} {call : Option DaemonCall} {w w' : World}
    {out : List Output}
    (h : noCall handler w = some (call, w', out)) : call = none := by
  obtain ⟨_, _, _, _, _, hnone, -⟩ := Action.bind_eq_some_iff.mp h
  exact (Action.pure_eq_some_iff.mp hnone).1

theorem noCall_bind (i : ℕ) (handler : Act Unit) : noCall handler >>= resume i = handler := by
  rw [noCall, Action.bind_assoc]
  funext w
  simp only [Action.pure_bind, resume]
  change Action.bind handler (fun _ => Pure.pure ()) w = handler w
  cases h : handler w with
  | none => simp [Action.bind, h]
  | some r => simp [Action.bind, h, Pure.pure]

theorem handleGetBlock_eq (i : ℕ) : handleGetBlock i = handleGetBlockCall i >>= resume i := by
  simp only [handleGetBlockCall, Action.bind_assoc, Action.pure_bind, resume]
  rfl

section Split

variable [Platform] (i : ℕ)

theorem creditShare_eq (block : CBlock) (nNonce : UInt64) (prime : Uint1024) (nDifficulty : ℚ) :
    creditShare i block nNonce prime nDifficulty =
      creditShareCall i block nNonce prime nDifficulty >>= resume i := by
  simp only [creditShare, creditShareCall, Action.bind_assoc]
  refine bind_congr fun pool => bind_congr fun _ => bind_congr fun _ => ?_
  split_ifs
  · rw [Action.pure_bind, resume]
  · rw [noCall_bind]

theorem handleSubmitShare_eq (data : Bytes) :
    handleSubmitShare i data = handleSubmitShareCall i data >>= resume i := by
  simp only [handleSubmitShare, handleSubmitShareCall, Action.bind_assoc]
  refine bind_congr fun pool => bind_congr fun read => ?_
  cases pool.mBlocksRequested[read.1]? with
  | none => exact (noCall_bind i _).symm
  | some block =>
    simp only [Action.bind_assoc]
    refine bind_congr fun w => ?_
    by_cases hheight : block.nHeight ≠ w.registry.mBestHeight
    · rw [if_pos hheight, if_pos hheight, noCall_bind]
    · rw [if_neg hheight, if_neg hheight]
      by_cases hprime : hashPrime read.1 read.2 ∈ pool.mPrimes
      · rw [if_pos hprime, if_pos hprime, noCall_bind]
      · rw [if_neg hprime, if_neg hprime, Action.bind_assoc]
        refine bind_congr fun nDifficulty => ?_
        split_ifs
        · exact creditShare_eq i _ _ _ _
        · exact (noCall_bind i _).symm

theorem handleRequest_eq (packet : Packet) :
    handleRequest i packet = handleRequestCall i packet >>= resume i := by
  unfold handleRequestCall
  split_ifs with hget hshare
  · rw [handleRequest, if_pos hget, handleGetBlock_eq]
  · rw [Action.bind_assoc, handleRequest, hshare]
    exact bind_congr fun data => handleSubmitShare_eq i data
  · exact (noCall_bind i _).symm

theorem processData_eq (receiveBuffer : Bytes) :
    processData i receiveBuffer = processDataCall i receiveBuffer >>= resume i := by
  rw [processData, processDataCall, Action.bind_assoc]
  refine bind_congr fun packet => ?_
  by_cases hvalid : packet.isValid .miner
  · rw [if_pos hvalid, if_pos hvalid]
    simp only [Action.bind_assoc]
    refine bind_congr fun _ => bind_congr fun pool => ?_
    by_cases hlogin : packet.mHeader = Packet.login
    · rw [if_pos hlogin, if_pos hlogin, noCall_bind]
    · rw [if_neg hlogin, if_neg hlogin]
      split_ifs
      · exact handleRequest_eq i packet
      · exact (noCall_bind i _).symm
  · rw [if_neg hvalid, if_neg hvalid, noCall_bind]

end Split

/-! ### The caller -/

/-- Connections and entries are linked as before. -/
def LinksKept (w w' : World) (_ : List Output) : Prop := w'.links = w.links

theorem LinksKept.composes : Action.Composes LinksKept where
  refl _ := rfl
  trans h h' := h'.trans h

/-- A call is made with the address of the caller, in a world with the links of the one before. -/
structure CallsBy (i : ℕ) (w w' : World) (call : DaemonCall) : Prop where
  links : w'.links = w.links
  caller : ∃ pool, w'.pools[i]? = some pool ∧ call.ipAddress = pool.mRemoteAddress

/-- Every call of this handler is made by connection `i`. -/
def CallerOnly (i : ℕ) (x : Act (Option DaemonCall)) : Prop :=
  ∀ w call w' out, x w = some (some call, w', out) → CallsBy i w w' call

section Caller

variable {i : ℕ}

theorem CallerOnly.bind {α : Type} {x : Act α} {f : α → Act (Option DaemonCall)}
    (hx : Action.Ensures LinksKept x) (hf : ∀ a, CallerOnly i (f a)) : CallerOnly i (x >>= f) := by
  intro w call w'' out h
  obtain ⟨a, w', out₁, out₂, h₁, h₂, rfl⟩ := Action.bind_eq_some_iff.mp h
  obtain ⟨links, caller⟩ := hf a w' call w'' out₂ h₂
  exact ⟨links.trans (hx w a w' out₁ h₁), caller⟩

theorem CallerOnly.ite {P : Prop} [Decidable P] {x y : Act (Option DaemonCall)}
    (hx : CallerOnly i x) (hy : CallerOnly i y) : CallerOnly i (if P then x else y) := by
  split_ifs
  · exact hx
  · exact hy

theorem callerOnly_noCall (handler : Act Unit) : CallerOnly i (noCall handler) := by
  intro w call w' out h
  cases noCall_eq_some h

theorem linksKept_self (i : ℕ) : Action.Ensures LinksKept (self i) := by
  intro w pool w' out h
  obtain ⟨-, rfl, -⟩ := self_eq_some_iff.mp h
  rfl

theorem callerOnly_handleGetBlockCall : CallerOnly i (handleGetBlockCall i) := by
  refine .bind (.modify fun w => links_modifyPool (by intro _; rfl) i w) fun _ => ?_
  intro w call w' out h
  simp only [Action.bind_eq_some_iff, self_eq_some_iff, Action.pure_eq_some_iff] at h
  obtain ⟨pool, _, _, _, ⟨hself, rfl, rfl⟩, ⟨hcall, rfl, rfl⟩, rfl⟩ := h
  cases hcall
  exact ⟨rfl, pool, hself, rfl⟩

variable [Platform]

theorem callerOnly_creditShareCall (block : CBlock) (nNonce : UInt64) (prime : Uint1024)
    (nDifficulty : ℚ) : CallerOnly i (creditShareCall i block nNonce prime nDifficulty) := by
  intro w call w' out h
  simp only [creditShareCall, Action.bind_eq_some_iff, self_eq_some_iff, Action.modify_eq_some_iff,
    registryCall_eq_some_iff] at h
  obtain ⟨pool, _, _, _, ⟨hself, rfl, rfl⟩,
    ⟨_, _, _, _, ⟨rfl, rfl⟩, ⟨_, _, _, _, ⟨-, rfl, rfl⟩, h, rfl⟩, rfl⟩, rfl⟩ := h
  split_ifs at h
  · obtain ⟨hcall, rfl, rfl⟩ := Action.pure_eq_some_iff.mp h
    cases hcall
    refine ⟨links_modifyPool (by intro _; rfl) i _,
      { pool with mPrimes := prime :: pool.mPrimes }, ?_, rfl⟩
    refine (getElem?_modifyPool i i _ _).trans ?_
    rw [if_pos rfl, hself]
    rfl
  · cases noCall_eq_some h

theorem callerOnly_handleSubmitShareCall (data : Bytes) :
    CallerOnly i (handleSubmitShareCall i data) := by
  refine .bind (linksKept_self i) fun pool => ?_
  refine .bind (.ofOption LinksKept.composes _) fun read => ?_
  change CallerOnly i (match pool.mBlocksRequested[read.1]? with | none => _ | some block => _)
  cases pool.mBlocksRequested[read.1]? with
  | none => exact callerOnly_noCall _
  | some block =>
    refine .bind (.get LinksKept.composes) fun w => .ite (callerOnly_noCall _) ?_
    refine .ite (callerOnly_noCall _) (.bind (.ofOption LinksKept.composes _) fun nDifficulty => ?_)
    exact .ite (callerOnly_creditShareCall _ _ _ _) (callerOnly_noCall _)

theorem callerOnly_processDataCall (receiveBuffer : Bytes) :
    CallerOnly i (processDataCall i receiveBuffer) := by
  have hban : ∀ packet, Action.Ensures LinksKept (ddosInvalidHeader i packet) := fun packet =>
    Action.Ensures.mono (fun _ _ _ h => congrArg links h.1)
      (only_ddosInvalidHeader (P := fun _ => True) (fun _ => trivial) packet)
  refine .bind (.ofOption LinksKept.composes _) fun packet => .ite ?_ (callerOnly_noCall _)
  refine .bind (hban packet) fun _ => .bind (linksKept_self i) fun pool => ?_
  refine .ite (callerOnly_noCall _) (.ite (.ite callerOnly_handleGetBlockCall ?_)
    (callerOnly_noCall _))
  exact .ite (.bind (.ofOption LinksKept.composes _) callerOnly_handleSubmitShareCall)
    (callerOnly_noCall _)

end Caller

end PoolConnection

/-! ### Runs in which expired entries are removed -/

/-- The events of the server, and the expiry of the timer that removes expired entries. -/
inductive MaintainedEvent
  | event (e : Event)
  | maintenanceTimer

def World.maintainedStep [Platform] (w : World) : MaintainedEvent → Option (World × List Output)
  | .event e => w.step e
  | .maintenanceTimer => (DaemonConnection.maintenanceTimerHandler w).map (·.2)

/-- The runs of the server with this timer. -/
abbrev MaintainedRun [Platform] := Run World.maintainedStep World.Initial

/-- Every open connection is alive and has an entry. -/
structure World.Registered (w : World) : Prop where
  alive : ∀ link ∈ w.links.1, link.1 → link.2.1 = false ∧ link.2.2
  entry : ∀ i link, w.links.1[i]? = some link → link.1 → i ∈ w.links.2

namespace World.Registered

variable {w w' : World}

theorem linkEffect {e : Event} (hw : w.Registered) (h : LinkEffect w w' e) : w'.Registered := by
  refine ⟨h.alive hw.alive, ?_⟩
  cases h with
  | kept links => exact links ▸ hw.entry
  | connected links =>
    rw [links]
    intro i link hlink hopen
    rcases Nat.lt_trichotomy i w.links.1.length with hi | hi | hi
    · rw [List.getElem?_append_left hi] at hlink
      exact List.mem_append_left _ (hw.entry i link hlink hopen)
    · exact List.mem_append_right _ (List.mem_singleton.mpr hi)
    · rw [List.getElem?_eq_none (by simpa using hi)] at hlink
      cases hlink
  | closed event links =>
    rw [links]
    intro i link hlink hopen
    rw [List.getElem?_modify] at hlink
    obtain ⟨before, hbefore, rfl⟩ := Option.map_eq_some_iff.mp hlink
    split_ifs at hopen
    exact hw.entry i before hbefore hopen
  | maintained links =>
    rw [links]
    intro i link hlink hopen
    rw [List.getElem?_map] at hlink
    obtain ⟨before, hbefore, rfl⟩ := Option.map_eq_some_iff.mp hlink
    exact hw.entry i before hbefore hopen

/-- The cleanup keeps the entries of all connections that are alive. -/
theorem maintenance {out : List Output} (hw : w.Registered)
    (h : DaemonConnection.maintenanceTimerHandler w = some ((), w', out)) : w'.Registered := by
  obtain ⟨mPoolConnections, hsweep, rfl, -⟩ :=
    DaemonConnection.cleanupExpiredPoolConnections_eq_some.mp h
  refine ⟨hw.alive, fun i link hlink hopen => ?_⟩
  obtain ⟨poolData, hentry, rfl⟩ := List.mem_map.mp (hw.entry i link hlink hopen)
  have halive := (hw.alive link (List.mem_of_getElem? hlink) hopen).2
  have hlive : ¬ w.expired poolData := by
    change w.links.1[poolData.mConnection]? = some link at hlink
    rw [World.links, List.getElem?_map] at hlink
    obtain ⟨pool, hpool, rfl⟩ := Option.map_eq_some_iff.mp hlink
    have hpoolAlive : pool.alive := halive
    simp [World.expired, World.lock, hpool, Option.filter, hpoolAlive]
  have hkept : poolData ∈ mPoolConnections.filter fun poolData => !w.expired poolData := by
    rw [Loop.filter_of_sweep hsweep]
    exact List.mem_filter.mpr ⟨hentry, by simpa using hlive⟩
  exact List.mem_map_of_mem (List.mem_filter.mp hkept).1

theorem of_run [Platform] {history : History World MaintainedEvent Output}
    (h : MaintainedRun history w) :
    w.Registered := by
  have hinv : w.Registered ∧ w.daemon.mNewBlock = false := by
    refine @Run.invariant _ _ _ _ _ (fun w => w.Registered ∧ w.daemon.mNewBlock = false) ?_ ?_ _ w h
    · rintro _ ⟨config, blockDb, accountDb, mRoundReward, rfl⟩
      exact ⟨⟨nofun, nofun⟩, rfl⟩
    · rintro w e w' out ⟨hw, hnew⟩ hstep
      cases e with
      | event e =>
        have heffect := step_effect hnew hstep
        exact ⟨hw.linkEffect heffect.linkEffect, heffect.mNewBlock hnew⟩
      | maintenanceTimer =>
        obtain ⟨⟨⟨⟩, r⟩, hr, hw'⟩ := Option.map_eq_some_iff.mp hstep
        cases hw'
        refine ⟨hw.maintenance hr, ?_⟩
        obtain ⟨_, -, rfl, -⟩ := DaemonConnection.cleanupExpiredPoolConnections_eq_some.mp hr
        exact hnew
  exact hinv.1

/-- An open connection is found by its address, if not itself then another one that has it too. -/
theorem findPoolConnection_isSome (hw : w.Registered) {i : ℕ} {pool : PoolConnection}
    (hself : w.pools[i]? = some pool) (hopen : pool.mConnection) :
    (DaemonConnection.findPoolConnection pool.mRemoteAddress w).isSome := by
  have hlink : w.links.1[i]? = some pool.link := by
    rw [World.links, List.getElem?_map, hself, Option.map_some]
  have halive : pool.alive := (hw.alive pool.link (List.mem_of_getElem? hlink) hopen).2
  obtain ⟨poolData, hentry, rfl⟩ := List.mem_map.mp (hw.entry i pool.link hlink hopen)
  rw [DaemonConnection.findPoolConnection, List.findIdx?_isSome, List.any_eq_true]
  exact ⟨poolData, hentry, by simp [World.lock, hself, Option.filter, halive]⟩

end World.Registered

open PoolConnection

/-- Whenever the handler of a packet asks the daemon connection for an entry, there is one. -/
theorem findPoolConnection_isSome_of_call [Platform]
    {history : History World MaintainedEvent Output}
    {w w' : World} {i : ℕ} {receiveBuffer : Bytes} {call : DaemonCall} {out : List Output}
    (hrun : MaintainedRun history w) (henabled : w.enabled (.minerData i receiveBuffer))
    (hcall : processDataCall i receiveBuffer w = some (some call, w', out)) :
    (DaemonConnection.findPoolConnection call.ipAddress w').isSome := by
  obtain ⟨links, pool, hself, haddress⟩ :=
    callerOnly_processDataCall receiveBuffer w call w' out hcall
  have hw := World.Registered.of_run hrun
  have hw' : w'.Registered := ⟨links ▸ hw.alive, links ▸ hw.entry⟩
  obtain ⟨before, hbefore, hopen⟩ := (Option.any_eq_true _ _).mp henabled
  have hlink : w'.links.1[i]? = some before.link := by
    rw [links, World.links, List.getElem?_map, hbefore, Option.map_some]
  rw [World.links, List.getElem?_map, hself, Option.map_some, Option.some.injEq] at hlink
  rw [haddress]
  exact hw'.findPoolConnection_isSome hself ((congrArg Prod.fst hlink).trans hopen)

section TwoMiners

attribute [local instance] Platform.plain

def otherGone : List MaintainedEvent :=
  [.event (.minerConnected [1]), .event (.minerConnected [2]), .event (.minerClosed 0),
    .event .serverMaintenance, .maintenanceTimer, .event .walletConnected,
    .event (.minerData 1 (Packet.withData Packet.login [66]).wire)]

def getBlockBuffer : Bytes := (Packet.getPacket Packet.getBlock).wire

theorem otherGone_found : ∃ history w w' call out,
    MaintainedRun history w ∧
      processDataCall 1 getBlockBuffer w = some (some call, w', out) ∧
        (DaemonConnection.findPoolConnection call.ipAddress w').isSome := by
  obtain ⟨⟨history, w⟩, hw⟩ : ∃ r, trace World.maintainedStep .fresh otherGone = some r :=
    Option.isSome_iff_exists.mp (by decide +kernel)
  have htest : (trace World.maintainedStep .fresh otherGone).any (fun r =>
      r.2.enabled (.minerData 1 getBlockBuffer) &&
        (processDataCall 1 getBlockBuffer r.2).any (·.1.isSome)) = true := by
    decide +kernel
  rw [hw, Option.any_some, Bool.and_eq_true] at htest
  obtain ⟨henabled, hcall⟩ := htest
  obtain ⟨⟨call, w', out⟩, hcall, hsome⟩ := (Option.any_eq_true _ _).mp hcall
  obtain ⟨call, rfl⟩ := Option.isSome_iff_exists.mp hsome
  have hrun := Run.of_trace World.fresh_initial hw
  exact ⟨history, w, w', call, out, hrun, hcall,
    findPoolConnection_isSome_of_call hrun henabled hcall⟩

end TwoMiners

end NexusPool
