import NexusPool.Ledger.Record
import NexusPool.Library.Program

/-!
# The registry shared by all connections

`Data_registry` owns the two databases, the coinbase and the global counters. Each of its
objects is guarded by its own mutex or is atomic, so what a handler does to the registry
is a sequence of the calls below, and other handlers may come in between any two of them.
-/

namespace NexusPool

open Concurrent

/-- The settings of `pool.conf` that are read after start-up. -/
structure Config where
  poolFee : UInt32
  minShare : UInt32
  useDdos : Bool

/-- The two lists of `Banned_users`, which nothing removes from. -/
structure BannedUsers where
  accounts : List Bytes
  ipAddresses : List Bytes

namespace BannedUsers

/-- `load_banned_users` reads the files into a copy of each list, so both start empty. -/
def load : BannedUsers := ⟨[], []⟩

def isAccountBanned (b : BannedUsers) (account : Bytes) : Bool := b.accounts.contains account

def isIpAddressBanned (b : BannedUsers) (ipAddress : Bytes) : Bool :=
  b.ipAddresses.contains ipAddress

def addBannedIpAddress (b : BannedUsers) (ipAddress : Bytes) : BannedUsers :=
  { b with ipAddresses := ipAddress :: b.ipAddresses }

end BannedUsers

@[ext] structure DataRegistry where
  mBlockDb : Database Uint1024 Block
  mAccountDb : Database Bytes Account
  mCoinbase : Coinbase
  mBannedUsers : BannedUsers
  mConfig : Config
  mBestHeight : UInt32
  mCurrentRound : UInt32

namespace DataRegistry

/-- The state after construction, with the databases as they were read from disk. -/
def init (config : Config) (blockDb : Database Uint1024 Block)
    (accountDb : Database Bytes Account) : DataRegistry where
  mBlockDb := blockDb
  mAccountDb := accountDb
  mCoinbase := .empty
  mBannedUsers := .load
  mConfig := config
  mBestHeight := 0
  mCurrentRound := 1

def account? (s : DataRegistry) (k : Bytes) : Option Account := s.mAccountDb.mapRecords[k]?

/-- The atomic calls that handlers make on the registry. -/
inductive Call
  | accountKeys
  | accountHasKey (cKey : Bytes)
  | accountGet (cKey : Bytes)
  | accountUpdate (cRecord : Account)
  | accountWrite
  | blockGet (cKey : Uint1024)
  | blockUpdate (cRecord : Block)
  | blockWrite
  | coinbase
  | findAddress (nxsAddress : Bytes)
  | mapOutputs (nxsAddress : Bytes)
  | currentRound
  | poolFee

namespace Call

@[reducible] def Res : Call → Type
  | accountKeys => List Bytes
  | accountHasKey _ => Bool
  | accountGet _ => Account
  | accountUpdate _ => Unit
  | accountWrite => Unit
  | blockGet _ => Block
  | blockUpdate _ => Unit
  | blockWrite => Unit
  | coinbase => Coinbase
  | findAddress _ => Bool
  | mapOutputs _ => UInt64
  | currentRound => UInt32
  | poolFee => UInt32

/-- What each call answers and what it leaves behind. Writing a database to disk changes
nothing in memory. -/
def handle : (c : Call) → DataRegistry → Res c × DataRegistry
  | accountKeys, s => (s.mAccountDb.getKeys, s)
  | accountHasKey cKey, s => (s.mAccountDb.hasKey cKey, s)
  | accountGet cKey, s =>
    let (cRecord, db) := s.mAccountDb.getRecord cKey
    (cRecord, { s with mAccountDb := db })
  | accountUpdate cRecord, s => ((), { s with mAccountDb := s.mAccountDb.updateRecord cRecord })
  | accountWrite, s => ((), s)
  | blockGet cKey, s =>
    let (cRecord, db) := s.mBlockDb.getRecord cKey
    (cRecord, { s with mBlockDb := db })
  | blockUpdate cRecord, s => ((), { s with mBlockDb := s.mBlockDb.updateRecord cRecord })
  | blockWrite, s => ((), s)
  | coinbase, s => (s.mCoinbase, s)
  | findAddress nxsAddress, s => (s.mCoinbase.findAddress nxsAddress, s)
  | mapOutputs nxsAddress, s =>
    let (nValue, c) := s.mCoinbase.getMapOutputs nxsAddress
    (nValue, { s with mCoinbase := c })
  | currentRound, s => (s.mCurrentRound, s)
  | poolFee, s => (s.mConfig.poolFee, s)

end Call

/-- A handler is a program of registry calls. -/
abbrev Handler := Program Call Call.Res

abbrev call (c : Call) : Handler (Call.Res c) := Program.perform c

/-- A handler that nothing interrupts. -/
abbrev exec {α : Type} (p : Handler α) (s : DataRegistry) : α × DataRegistry :=
  Program.run Call.handle p s

theorem exec_bind {α β : Type} (p : Handler α) (f : α → Handler β) (s : DataRegistry) :
    exec (p >>= f) s = exec (f (exec p s).1) (exec p s).2 :=
  Program.run_bind Call.handle p f s

theorem exec_call (c : Call) (s : DataRegistry) : exec (call c) s = Call.handle c s := rfl

/-- The read-modify-write of an account that every handler makes: one call for the record,
a later one to store it whole. -/
def modifyAccount (cKey : Bytes) (change : Account → Account) : Handler Unit := do
  let cAccount ← call (.accountGet cKey)
  call (.accountUpdate (change cAccount))

@[simp] theorem exec_modifyAccount (cKey : Bytes) (change : Account → Account) (s : DataRegistry) :
    exec (modifyAccount cKey change) s =
      ((), { s with mAccountDb := s.mAccountDb.modifyRecord cKey change }) := rfl

theorem exec_forM_modifyAccount {V : Type} (changes : V → Account → Account)
    (amounts : List (Bytes × V)) (s : DataRegistry) :
    exec (amounts.forM fun e => modifyAccount e.1 (changes e.2)) s =
      ((), { s with mAccountDb := s.mAccountDb.modifyAll changes amounts }) := by
  rw [exec, Program.run_forM]
  induction amounts generalizing s with
  | nil => rfl
  | cons e amounts ih => exact ih _

end DataRegistry

end NexusPool
