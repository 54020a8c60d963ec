import NexusPool.Library.Run
import NexusPool.Server.DaemonConnection

/-!
# Runs of the server

The events that reach the process: connections of miners and of the wallet, what they send,
and timers. Each event runs one handler.
-/

namespace NexusPool

open Reactive World

inductive Event
  | minerConnected (ipAddress : Bytes)
  | minerData (i : ℕ) (receiveBuffer : Bytes)
  | minerClosed (i : ℕ)
  | serverMaintenance
  | walletConnected
  | walletData (receiveBuffer : Bytes)
  | walletClosed
  | blockTimer
  | orphanCheckTimer
  | getHeightTimer

/-- The packet that the daemon connection handles on this event, if there is one. -/
def Event.walletPacket : Event → Option Packet
  | .walletData receiveBuffer =>
    (Packet.ofBuffer .wallet receiveBuffer).filter (·.isValid .wallet)
  | _ => none

def Event.receives (header : UInt8) (e : Event) : Bool :=
  e.walletPacket.any (·.mHeader = header)

theorem Event.mHeader_of_receives {e : Event} {packet : Packet} {header : UInt8}
    (hpacket : e.walletPacket = some packet) (h : e.receives header) : packet.mHeader = header := by
  simpa [Event.receives, hpacket] using h

def Output.transmits (header : UInt8) : Output → Bool
  | .toWallet packet => packet.mHeader = header
  | _ => false

/-- A new connection takes its settings from the registry. -/
def PoolConnection.new (mRemoteAddress : Bytes) (config : Config) : PoolConnection where
  mRemoteAddress := mRemoteAddress
  mConnection := true
  mConnectionClosed := false
  alive := true
  mNxsaddress := []
  mLoggedIn := false
  mIsDDOS := config.useDdos
  mMinShare := config.minShare
  mPrimes := []
  mBlocksRequested := ∅
  mNumBlocksRequested := 0

namespace World

/-- The server accepts the connection, and once it is established the daemon connection gets
an entry for it. -/
def minerConnected (ipAddress : Bytes) : Act Unit := do
  let w ← Action.get
  Action.modify fun w =>
    { w with pools := w.pools ++ [PoolConnection.new ipAddress w.registry.mConfig] }
  DaemonConnection.addPoolConnection w.pools.length

def minerClosed (i : ℕ) : Act Unit :=
  Action.modify (modifyPool i ({ · with mConnection := false, mConnectionClosed := true }))

/-- The server lets go of closed connections; nothing else holds one. -/
def serverMaintenance : Act Unit :=
  Action.modify fun w =>
    { w with pools := w.pools.map fun pool =>
        { pool with alive := pool.alive && !pool.mConnectionClosed } }

/-- The timers start, all but the one that would remove expired entries, and the prime
channel is set. -/
def walletConnected : Act Unit := do
  Action.modify (modifyDaemon ({ · with timersStarted := true }))
  DaemonConnection.transmit (DaemonPacket.setChannel 1)

def walletClosed : Act Unit := Action.modify (modifyDaemon ({ · with mConnection := false }))

def handler [Platform] : Event → Act Unit
  | .minerConnected ipAddress => minerConnected ipAddress
  | .minerData i receiveBuffer => PoolConnection.processData i receiveBuffer
  | .minerClosed i => minerClosed i
  | .serverMaintenance => serverMaintenance
  | .walletConnected => walletConnected
  | .walletData receiveBuffer => DaemonConnection.processData receiveBuffer
  | .walletClosed => walletClosed
  | .blockTimer => DaemonConnection.blockTimerHandler
  | .orphanCheckTimer => DaemonConnection.orphanCheckTimerHandler
  | .getHeightTimer => DaemonConnection.getHeightTimerHandler

/-- Only an open connection delivers data or is closed, and the timers run from the time the
wallet is connected. -/
def enabled (w : World) : Event → Bool
  | .minerData i _ | .minerClosed i => w.pools[i]?.any (·.mConnection)
  | .walletConnected => w.daemon.mConnection && !w.daemon.timersStarted
  | .walletData _ | .walletClosed => w.daemon.mConnection && w.daemon.timersStarted
  | .blockTimer | .orphanCheckTimer | .getHeightTimer => w.daemon.timersStarted
  | .minerConnected _ | .serverMaintenance => true

/-- `none` for an event that cannot happen, and where the handler is undefined. -/
def step [Platform] (w : World) (e : Event) : Option (World × List Output) :=
  if w.enabled e then (handler e w).map (·.2) else none

/-- The server after start-up, with any settings and any databases. -/
def Initial (w : World) : Prop :=
  ∃ config blockDb accountDb mRoundReward,
    w = World.init (DataRegistry.init config blockDb accountDb) mRoundReward

end World

def World.fresh : World := World.init (DataRegistry.init ⟨0, 0, false⟩ .empty .empty) 0

theorem World.fresh_initial : World.Initial World.fresh := ⟨_, _, _, _, rfl⟩

abbrev ServerRun [Platform] := Run World.step World.Initial

theorem handler_of_step [Platform] {w w' : World} {e : Event} {out : List Output}
    (h : w.step e = some (w', out)) : handler e w = some ((), w', out) := by
  unfold World.step at h
  split_ifs at h
  obtain ⟨⟨⟨⟩, r⟩, hr, rfl⟩ := Option.map_eq_some_iff.mp h
  exact hr

theorem enabled_of_step [Platform] {w w' : World} {e : Event} {out : List Output}
    (h : w.step e = some (w', out)) : w.enabled e = true := by
  unfold World.step at h
  split_ifs at h with henabled
  exact henabled

end NexusPool
