import NexusPool.Ledger.Payout
import NexusPool.Library.Action
import NexusPool.Mining.Block
import NexusPool.Mining.Prime
import NexusPool.Network.Packet

/-!
# The objects of the server process

One registry, one daemon connection to the wallet, and the pool connections to the miners.
The daemon connection keeps an entry for each pool connection, with a weak pointer to it. A
handler runs to its end before the next one starts; what overlapping handlers do to the
registry is the subject of `Ledger.Concurrency`.
-/

namespace NexusPool

open Reactive
open Std (ExtTreeMap)

/-- Highest balance first. -/
def higherBalance (a b : Bytes × UInt64) : Prop := a.2 ≥ b.2

instance : DecidableRel higherBalance := fun a b => inferInstanceAs (Decidable (a.2 ≥ b.2))

instance : Std.Total higherBalance := ⟨fun a b => UInt64.le_total b.2 a.2⟩

instance : IsTrans (Bytes × UInt64) higherBalance := ⟨fun _ _ _ hab hbc => UInt64.le_trans hbc hab⟩

/-- What the handlers call and take as it comes: the block hash, the address check, the
share verification, `pow`, and `std::sort` on accounts by balance, highest first. -/
class Platform extends Target where
  sk1024 : BlockHeader → Uint1024
  isValidAddress : Bytes → Bool
  gmpVerification : Uint1024 → Option ℚ
  shareWeight : ℚ → UInt64
  sortAccounts : List (Bytes × UInt64) → List (Bytes × UInt64)
  sortAccounts_perm : ∀ accounts, (sortAccounts accounts).Perm accounts
  sortAccounts_sorted : ∀ accounts, (sortAccounts accounts).Pairwise higherBalance

/-- A platform on which every share has difficulty zero, which is what the verification yields
as long as its globals are not initialised. Blocks are told apart by their merkle root. -/
@[reducible] def Platform.plain : Platform where
  toTarget := .masking
  sk1024 header := ⟨header.hashMerkleRoot.pn ++ List.replicate 16 0, by
    simp [header.hashMerkleRoot.width]⟩
  isValidAddress nxsAddress := !nxsAddress.isEmpty
  gmpVerification _ := some 0
  shareWeight _ := 0
  sortAccounts := List.insertionSort higherBalance
  sortAccounts_perm := List.perm_insertionSort higherBalance
  sortAccounts_sorted := List.pairwise_insertionSort higherBalance

def CBlock.getHash [Platform] (block : CBlock) : Uint1024 := Platform.sk1024 block.toBlockHeader

/-- `mConnection` says whether the pointer to the network connection is set, `alive` whether
the object still exists. `mPrimes` is a set. -/
structure PoolConnection where
  mRemoteAddress : Bytes
  mConnection : Bool
  mConnectionClosed : Bool
  alive : Bool
  mNxsaddress : Bytes
  mLoggedIn : Bool
  mIsDDOS : Bool
  mMinShare : UInt32
  mPrimes : List Uint1024
  mBlocksRequested : ExtTreeMap Uint1024 CBlock
  mNumBlocksRequested : UInt16

/-- The daemon's entry for a pool connection, which is given by its index. -/
structure PoolConnectionData where
  mConnection : ℕ
  mBlocksRequested : UInt16
  mBlocksWaiting : UInt16
  mSubmitBlock : Option CBlock

structure DaemonConnection where
  mConnection : Bool
  timersStarted : Bool
  mPoolConnections : List PoolConnectionData
  mCoinbasePending : Bool
  mNewBlock : Bool
  mRoundReward : UInt64
  mLastBlockfinder : Bytes
  mHashSubmitBlock : Uint1024

structure World where
  registry : DataRegistry
  daemon : DaemonConnection
  pools : List PoolConnection

/-- Packets handed to `transmit`, and what is done to the DDOS filter of a connection, which
no handler reads. -/
inductive Output
  | toWallet (packet : Packet)
  | toMiner (i : ℕ) (packet : Packet)
  | score (i : ℕ) (nScore : ℕ)
  | ban (i : ℕ) (message : String)
  deriving DecidableEq

abbrev Act (α : Type) := Action World Output α

namespace World

/-- After the daemon connection is made, before the first event. The constructor leaves
`m_round_reward` as it is. -/
def init (registry : DataRegistry) (mRoundReward : UInt64) : World where
  registry := registry
  daemon :=
    { mConnection := true
      timersStarted := false
      mPoolConnections := []
      mCoinbasePending := false
      mNewBlock := false
      mRoundReward := mRoundReward
      mLastBlockfinder := []
      mHashSubmitBlock := 0 }
  pools := []

/-- `lock` on the weak pointer to a pool connection. -/
def lock (w : World) (i : ℕ) : Option PoolConnection := w.pools[i]?.filter (·.alive)

def modifyDaemon (f : DaemonConnection → DaemonConnection) (w : World) : World :=
  { w with daemon := f w.daemon }

def modifyPool (i : ℕ) (f : PoolConnection → PoolConnection) (w : World) : World :=
  { w with pools := w.pools.modify i f }

theorem map_modify_eq {α β : Type} {g : α → β} {f : α → α} (hf : ∀ a, g (f a) = g a) (i : ℕ)
    (items : List α) : (items.modify i f).map g = items.map g := by
  apply List.ext_getElem?
  intro k
  rw [List.getElem?_map, List.getElem?_map, List.getElem?_modify]
  split_ifs <;> simp [Function.comp_def, hf]

theorem getElem?_modifyPool (i k : ℕ) (f : PoolConnection → PoolConnection) (w : World) :
    (w.modifyPool i f).pools[k]? = if i = k then w.pools[k]?.map f else w.pools[k]? := by
  by_cases h : i = k
  · simp [modifyPool, h]
  · simp [modifyPool, h]

theorem lock_modifyPool {f : PoolConnection → PoolConnection}
    (hf : ∀ pool, (f pool).alive = pool.alive)
    (i k : ℕ) (w : World) :
    (w.modifyPool i f).lock k = if i = k then (w.lock k).map f else w.lock k := by
  simp only [lock, getElem?_modifyPool]
  split_ifs
  · cases w.pools[k]? <;> simp [Option.filter, hf]
  · rfl

def modifyRegistry (f : DataRegistry → DataRegistry) (w : World) : World :=
  { w with registry := f w.registry }

def modifyEntry (j : ℕ) (f : PoolConnectionData → PoolConnectionData) (w : World) : World :=
  w.modifyDaemon fun d => { d with mPoolConnections := d.mPoolConnections.modify j f }

/-- A handler of the registry, run without interruption. -/
def registryCall {α : Type} (p : DataRegistry.Handler α) : Act α := fun w =>
  some ((DataRegistry.exec p w.registry).1,
    { w with registry := (DataRegistry.exec p w.registry).2 }, [])

@[simp] theorem registryCall_eq_some_iff {α : Type} {p : DataRegistry.Handler α}
    {a : α} {w w' : World}
    {out : List Output} : registryCall p w = some (a, w', out) ↔
      a = (DataRegistry.exec p w.registry).1 ∧
        w' = { w with registry := (DataRegistry.exec p w.registry).2 } ∧ out = [] := by
  unfold registryCall
  grind

end World

namespace DaemonConnection

open World

/-- Dereferences the network connection. -/
def transmit (packet : Packet) : Act Unit := do
  let w ← Action.get
  Action.require w.daemon.mConnection
  Action.send (.toWallet packet)

theorem transmit_eq_some {packet : Packet} {u : Unit} {w w' : World} {out : List Output}
    (h : transmit packet w = some (u, w', out)) : w' = w ∧ out = [.toWallet packet] := by
  rw [transmit, Action.get_bind] at h
  simp only [Action.bind_eq_some_iff, Action.require_eq_some_iff, Action.send_eq_some_iff] at h
  obtain ⟨_, _, _, _, ⟨_, rfl, rfl⟩, ⟨rfl, rfl⟩, rfl⟩ := h
  exact ⟨rfl, rfl⟩

/-! ### The list of pool connections -/

def addPoolConnection (i : ℕ) : Act Unit :=
  Action.modify (modifyDaemon fun d =>
    { d with mPoolConnections := d.mPoolConnections ++ [⟨i, 0, 0, none⟩] })

/-- The first entry whose connection is alive and has this address. -/
def findPoolConnection (ipAddress : Bytes) (w : World) : Option ℕ :=
  w.daemon.mPoolConnections.findIdx? fun poolData =>
    (w.lock poolData.mConnection).any (·.mRemoteAddress = ipAddress)

/-- Which entry is found depends on the addresses of the connections that are alive. -/
theorem findPoolConnection_congr {w w' : World} (ipAddress : Bytes)
    (hentries : w'.daemon.mPoolConnections = w.daemon.mPoolConnections)
    (haddress : ∀ k, (w'.lock k).map (·.mRemoteAddress) = (w.lock k).map (·.mRemoteAddress)) :
    findPoolConnection ipAddress w' = findPoolConnection ipAddress w := by
  have hany : ∀ k, (w'.lock k).any (·.mRemoteAddress = ipAddress) =
      (w.lock k).any (·.mRemoteAddress = ipAddress) := by
    intro k
    have h := congrArg (Option.any (· = ipAddress)) (haddress k)
    simpa [Option.any_map, Function.comp_def] using h
  simp only [findPoolConnection, hentries, hany]

theorem findPoolConnection_modifyPool {f : PoolConnection → PoolConnection}
    (halive : ∀ pool, (f pool).alive = pool.alive)
    (haddress : ∀ pool, (f pool).mRemoteAddress = pool.mRemoteAddress) (ipAddress : Bytes) (i : ℕ)
    (w : World) :
    findPoolConnection ipAddress (w.modifyPool i f) = findPoolConnection ipAddress w := by
  refine findPoolConnection_congr ipAddress rfl fun k => ?_
  rw [lock_modifyPool halive]
  split_ifs
  · simp [Function.comp_def, haddress]
  · rfl

/-- Without an entry the end iterator is dereferenced. -/
def requestBlock (blocksRequested : UInt16) (ipAddress : Bytes) : Act Unit := do
  let w ← Action.get
  let j ← Action.ofOption (findPoolConnection ipAddress w)
  Action.modify (modifyEntry j ({ · with mBlocksRequested := blocksRequested }))

def submission (w : World) (j : ℕ) : Option CBlock :=
  w.daemon.mPoolConnections[j]?.bind (·.mSubmitBlock)

/-- True if the entry held no block, and then it holds this one. -/
def submitBlock (block : CBlock) (ipAddress : Bytes) : Act Bool := do
  let w ← Action.get
  let j ← Action.ofOption (findPoolConnection ipAddress w)
  if (submission w j).isNone then
    Action.modify (modifyEntry j ({ · with mSubmitBlock := some block }))
    return true
  else
    return false

end DaemonConnection

end NexusPool
