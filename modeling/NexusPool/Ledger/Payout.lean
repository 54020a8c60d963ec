import NexusPool.Ledger.DataRegistry

/-!
# The payout manager

`Payout_manager` and the two places where a pool connection writes an account, each as
the program of registry calls it makes. Every read-modify-write of an account is one
`accountGet` and one later `accountUpdate` of the whole record.
-/

namespace NexusPool

open Concurrent DataRegistry

namespace Account

def credit (cAccount : Account) (nValue : UInt64) : Account :=
  { cAccount with nAccountBalance := cAccount.nAccountBalance + nValue }

/-- An amount above the balance leaves zero. -/
def debit (cAccount : Account) (nValue : UInt64) : Account :=
  { cAccount with
    nAccountBalance :=
      if nValue > cAccount.nAccountBalance then 0 else cAccount.nAccountBalance - nValue }

def clear (cAccount : Account) : Account := { cAccount with nRoundShares := 0 }

def addShares (cAccount : Account) (weight : UInt64) : Account :=
  { cAccount with nRoundShares := cAccount.nRoundShares + weight }

end Account

namespace PayoutManager

def addWeight (weight : UInt64) (key : Bytes) : Handler UInt64 := do
  let cAccount ← call (.accountGet key)
  return weight + cAccount.nRoundShares

def totalWeight : Handler UInt64 := do
  let vKeys ← call .accountKeys
  vKeys.foldlM addWeight 0

def clearShares : Handler Unit := do
  let vKeys ← call .accountKeys
  vKeys.forM fun key => modifyAccount key .clear

/-- The two percent bonus, `reward * 0.02`. -/
def finderBonus (reward : UInt64) : UInt64 := (truncate (reward.toNat * (2 / 100))).toUInt64

/-- The credit of one account. The cast to `uint32_t` keeps the low 32 bits. -/
def shareCredit (nTotalWeight reward nRoundShares : UInt64) : UInt64 :=
  (truncate ((nRoundShares.toNat : ℚ) / nTotalWeight.toNat * reward.toNat)).toUInt32.toUInt64

/-- One turn of the loop over the accounts: deduct what the coinbase pays out, then credit
the shares. -/
def payAccount (nTotalWeight reward : UInt64) (sums : Credits × UInt64) (key : Bytes) :
    Handler (Credits × UInt64) := do
  let cAccount ← call (.accountGet key)
  let cAccount ←
    if ← call (.findAddress key) then do
      let mapOutput ← call (.mapOutputs key)
      let cAccount := cAccount.debit mapOutput
      call (.accountUpdate cAccount)
      pure cAccount
    else pure cAccount
  if cAccount.nRoundShares = 0 then
    return sums
  let nCredit := shareCredit nTotalWeight reward cAccount.nRoundShares
  call (.accountUpdate (cAccount.credit nCredit))
  return (sums.1.addCredit key nCredit, sums.2 + nCredit)

/-- The bonus of the block finder. Returns the credits so far and what is left of the
reward; without a finder nothing happens. -/
def payFinder (reward : UInt64) (lastBlockfinder : Bytes) : Handler (Credits × UInt64) := do
  if lastBlockfinder ≠ [] then
    let credit := finderBonus reward
    modifyAccount lastBlockfinder (·.credit credit)
    return (Credits.empty.addCredit lastBlockfinder credit, reward - credit)
  else
    return (.empty, reward)

/-- Any remainder of the reward goes to the block finder; it is not entered in the credits. -/
def payRemainder (lastBlockfinder : Bytes) (reward nTotalReward : UInt64) : Handler Unit := do
  if reward > nTotalReward then
    modifyAccount lastBlockfinder (·.credit (reward - nTotalReward))

def commitBlock (cBlock : Block) : Handler Unit := do
  call (.blockUpdate cBlock)
  call .blockWrite

def updateBalances (reward : UInt64) (hashSubmitBlock : Uint1024) (lastBlockfinder : Bytes) :
    Handler Unit := do
  let cCoinbase ← call .coinbase
  let nRound ← call .currentRound
  let poolFee ← call .poolFee
  let (cCredits, reward) ← payFinder (reward - reward * poolFee.toUInt64) lastBlockfinder
  let nTotalWeight ← totalWeight
  let vKeys ← call .accountKeys
  let (cCredits, nTotalReward) ← vKeys.foldlM (payAccount nTotalWeight reward) (cCredits, 0)
  payRemainder lastBlockfinder reward nTotalReward
  commitBlock
    { cKey := hashSubmitBlock
      nCoinbaseValue := cCoinbase.nMaxValue + cCoinbase.nPoolFee
      cCoinbase := cCoinbase
      cCredits := cCredits
      nRound := nRound }
  call .accountWrite

def refundPayouts (hashBlock : Uint1024) : Handler Unit := do
  let cBlock ← call (.blockGet hashBlock)
  if cBlock.nCoinbaseValue = 0 then
    return
  cBlock.cCredits.mapCredits.toList.forM fun e => modifyAccount e.1 (·.debit e.2)
  cBlock.cCoinbase.mapOutputs.toList.forM fun e => modifyAccount e.1 (·.credit e.2)
  commitBlock { cBlock with nCoinbaseValue := 0 }

end PayoutManager

namespace PoolConnection

/-- An accepted share adds its weight to the account of the connection. -/
def acceptShare (nxsAddress : Bytes) (weight : UInt64) : Handler Unit :=
  modifyAccount nxsAddress (·.addShares weight)

/-- A login opens an account for an address that has none. -/
def openAccount (nxsAddress : Bytes) : Handler Unit := do
  unless ← call (.accountHasKey nxsAddress) do
    call (.accountUpdate (.new nxsAddress))

end PoolConnection

end NexusPool
